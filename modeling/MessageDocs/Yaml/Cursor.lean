import MessageDocs.Text

/-! # Positions in a YAML text

A cursor is the text that is still to be read, with its position. Lines end with a line feed, a
carriage return, both in this order, or one of the three line breaks of Unicode.
-/

set_option autoImplicit false

namespace MessageDocs.Yaml

def isBreak (c : Char) : Bool :=
  c = '\n' || c = '\r' || c = '\x85' || c = '\u2028' || c = '\u2029'

def isBlank (c : Char) : Bool :=
  c = ' ' || c = '\t'

/-- The characters of anchors, tag handles and directive names. -/
def isWordChar (c : Char) : Bool :=
  c.isAlphanum || c = '_' || c = '-'

/-- Whether a text is at its end, at a blank or at a line break. -/
def blankOrEnd : Text → Bool
  | [] => true
  | c :: _ => isBlank c || isBreak c

/-- The characters that a YAML text may contain. -/
def isAllowed (c : Char) : Bool :=
  let n := c.toNat
  c = '\t' || c = '\n' || c = '\r' || (0x20 ≤ n && n ≤ 0x7E) || n == 0x85 ||
    (0xA0 ≤ n && n ≤ 0xD7FF) || (0xE000 ≤ n && n ≤ 0xFFFD) || 0x10000 ≤ n

structure Cursor where
  rest : Text
  /-- The number of bytes before it. -/
  offset : Nat := 0
  line : Nat := 0
  column : Nat := 0
  /-- The number of characters of the whole text and one more, which bounds every repetition. -/
  bound : Nat
  deriving Repr

namespace Cursor

/-- The cursor at the start of a text. -/
def ofText (t : Text) : Cursor where
  rest := t
  bound := t.length + 1

/-- The cursor `n` characters further, none of them a line break. -/
def advance (n : Nat) (c : Cursor) : Cursor :=
  { c with
    rest := c.rest.drop n
    offset := c.offset + Text.byteLength (c.rest.take n)
    column := c.column + n }

/-- The cursor after the characters of a class that contains no line break. -/
def skipWhile (p : Char → Bool) (c : Cursor) : Cursor :=
  c.advance (c.rest.takeWhile p).length

/-- The cursor after a line break, if there is one here. -/
def nextLine (c : Cursor) : Cursor :=
  match c.rest with
  | '\r' :: '\n' :: rest => ⟨rest, c.offset + 2, c.line + 1, 0, c.bound⟩
  | ch :: rest =>
    if isBreak ch then ⟨rest, c.offset + ch.utf8Size, c.line + 1, 0, c.bound⟩ else c
  | [] => c

/-- The line break here as it counts in a scalar: as a line feed, unless Unicode gives it a
meaning of its own. -/
def lineBreak (c : Cursor) : Text :=
  match c.rest with
  | ch :: _ =>
    if ch = '\u2028' || ch = '\u2029' then [ch]
    else if isBreak ch then ['\n']
    else []
  | [] => []

def atBlankOrEnd (c : Cursor) : Bool :=
  blankOrEnd c.rest

def atBreak (c : Cursor) : Bool :=
  match c.rest with
  | ch :: _ => isBreak ch
  | [] => false

/-- Whether a given mark of documents stands at the start of the line. -/
def atDocumentMark (mark : Text) (c : Cursor) : Bool :=
  c.column = 0 &&
    match Text.after? mark c.rest with
    | some rest => blankOrEnd rest
    | none => false

def atDocumentEdge (c : Cursor) : Bool :=
  c.atDocumentMark "---" || c.atDocumentMark "..."

/-- The cursor after blanks and a comment; none when something else stands on the line. -/
def lineEnd? (c : Cursor) : Option Cursor :=
  let c := c.skipWhile isBlank
  let c := if c.rest.head? = some '#' then c.skipWhile (!isBreak ·) else c
  if c.rest = [] ∨ c.atBreak then some c.nextLine else none

end Cursor

end MessageDocs.Yaml
