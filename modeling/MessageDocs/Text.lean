/-! # Text as a list of characters

Every name, line and page of this library is a `Text`, a list of Unicode scalar values, so that
each operation on text is an operation on lists. A string literal stands for the text of its
characters.

* `Text.split` cuts a text at every character of a class; lines, words, path segments and comma
  lists are all cuts of this kind.
* `Text.isSpace` is the white space of the Unicode standard, and `trim`, `words` and
  `collapse` are the three uses made of it.
-/

set_option autoImplicit false

namespace MessageDocs

/-- A text is the list of its characters. -/
abbrev Text := List Char

instance : Coe String Text := ⟨String.toList⟩

namespace Text

/-! ## Cutting and joining -/

/-- The pieces between the characters of a class, empty pieces included. -/
def split (cut : Char → Bool) : Text → List Text
  | [] => [[]]
  | c :: rest =>
    if cut c then
      [] :: split cut rest
    else
      match split cut rest with
      | [] => [[c]]
      | piece :: pieces => (c :: piece) :: pieces

/-- The pieces put together again with a separator between them. -/
def join (separator : Text) (pieces : List Text) : Text :=
  separator.intercalate pieces

/-- The text before the first `mark` and the text after it. -/
def cutAt (mark : Char) (t : Text) : Option (Text × Text) :=
  match t.dropWhile (· != mark) with
  | [] => none
  | _ :: after => some (t.takeWhile (· != mark), after)

/-- The text after the last `mark`, all of it when there is none. -/
def afterLast (mark : Char) (t : Text) : Text :=
  (t.reverse.takeWhile (· != mark)).reverse

/-- The text without its longest tail of a class. -/
def dropTail (drop : Char → Bool) (t : Text) : Text :=
  (t.reverse.dropWhile drop).reverse

/-! ## White space -/

/-- The characters with the Unicode property `White_Space`. -/
def isSpace (c : Char) : Bool :=
  let n := c.toNat
  (9 ≤ n && n ≤ 13) || n == 0x20 || n == 0x85 || n == 0xA0 || n == 0x1680 ||
    (0x2000 ≤ n && n ≤ 0x200A) || n == 0x2028 || n == 0x2029 || n == 0x202F || n == 0x205F ||
    n == 0x3000

def trimStart (t : Text) : Text :=
  t.dropWhile isSpace

def trimEnd (t : Text) : Text :=
  t.dropTail isSpace

def trim (t : Text) : Text :=
  trimEnd (trimStart t)

/-- The maximal runs of characters that are not white space. -/
def words (t : Text) : List Text :=
  (split isSpace t).filter (· ≠ [])

/-- The words of a line with one blank between them. -/
def collapse (t : Text) : Text :=
  join " " (words t)

/-! ## Lines -/

/-- A line without the carriage return before its line feed. -/
def dropReturn (line : Text) : Text :=
  if line.getLast? = some '\r' then line.dropLast else line

/-- The lines of a text. A line ends with a line feed, which may follow a carriage return; what
stands after the last line feed is a line of its own unless it is empty. -/
def lines (t : Text) : List Text :=
  let pieces := split (· == '\n') t
  let ended := pieces.dropLast.map dropReturn
  match pieces.getLast? with
  | some (c :: last) => ended ++ [c :: last]
  | _ => ended

/-! ## Searching and measuring -/

def startsWith (start t : Text) : Bool :=
  start.isPrefixOf t

def endsWith (tail t : Text) : Bool :=
  tail.isSuffixOf t

/-- Whether a text occurs somewhere in another. -/
def occursIn (part : Text) : Text → Bool
  | [] => part.isEmpty
  | c :: rest => part.isPrefixOf (c :: rest) || occursIn part rest

/-- What follows `start`, for a text that starts with it. -/
def after? (start t : Text) : Option Text :=
  start.isPrefixOf? t

/-- What precedes `tail`, for a text that ends with it. -/
def before? (tail t : Text) : Option Text :=
  (tail.reverse.isPrefixOf? t.reverse).map List.reverse

/-- The number of bytes of the UTF-8 form. -/
def byteLength (t : Text) : Nat :=
  t.foldr (fun c n => c.utf8Size + n) 0

/-- The decimal numeral of a number. -/
def ofNat (n : Nat) : Text :=
  Nat.toDigits 10 n

/-- A number with its noun, in the singular exactly for one. -/
def counted (n : Nat) (one many : Text) : Text :=
  ofNat n ++ " " ++ (if n = 1 then one else many)

/-- A text padded on the left with blanks up to a width. -/
def padLeft (width : Nat) (t : Text) : Text :=
  List.replicate (width - t.length) ' ' ++ t

end Text

end MessageDocs
