import MessageDocs.Yaml.Cursor

/-! # YAML scalars

The three ways to write a text: plain, between quotes, and as an indented block. Each reader
starts at the scalar and gives its text and the cursor after it, or nothing for a text that is not
well formed. The first argument of a repeated reader bounds the number of repetitions; a scalar
has no more parts than there are characters.
-/

set_option autoImplicit false

namespace MessageDocs.Yaml

/-! ## Gaps between the pieces of a scalar -/

/-- White space between two pieces of a scalar. -/
structure Gap where
  /-- The blanks before the first line break, forgotten after it. -/
  blanks : Text := []
  /-- Whether the gap goes beyond the line. -/
  broken : Bool := false
  /-- The first line break, unless it was escaped. -/
  first : Text := []
  /-- The further line breaks. -/
  more : Text := []

namespace Gap

/-- What a gap stands for: a single line feed becomes a blank, and before further line breaks it
vanishes. -/
def text (g : Gap) : Text :=
  if g.broken then
    if g.first.head? = some '\n' then
      if g.more = [] then " " else g.more
    else
      g.first ++ g.more
  else
    g.blanks

/-- The gap at a cursor. A tab before the given column of a continued line is not allowed. -/
def take (column : Nat) : Nat → Gap → Cursor → Option (Gap × Cursor)
  | 0, g, c => some (g, c)
  | n + 1, g, c =>
    match c.rest with
    | [] => some (g, c)
    | ch :: _ =>
      if isBlank ch then
        if g.broken then
          if c.column < column ∧ ch = '\t' then none else take column n g (c.advance 1)
        else
          take column n { g with blanks := g.blanks ++ [ch] } (c.advance 1)
      else if isBreak ch then
        if g.broken then
          take column n { g with more := g.more ++ c.lineBreak } c.nextLine
        else
          take column n { broken := true, first := c.lineBreak } c.nextLine
      else
        some (g, c)

end Gap

/-! ## Plain scalars -/

def isFlowIndicator (c : Char) : Bool :=
  c = ',' || c = '[' || c = ']' || c = '\x7b' || c = '\x7d'

/-- The characters of a plain scalar up to white space or an indicator that ends it. Inside flow
collections a colon must not touch an indicator. -/
def plainPiece (flow : Bool) : Text → Option Text
  | [] => some []
  | c :: rest =>
    if isBlank c || isBreak c then
      some []
    else if flow && c = ':' && (rest.head?.any fun d => isFlowIndicator d || d = '?') then
      none
    else if c = ':' && blankOrEnd rest then
      some []
    else if flow && isFlowIndicator c then
      some []
    else
      (plainPiece flow rest).map (c :: ·)

/-- A scalar that has been read. -/
structure Read where
  text : Text
  cursor : Cursor
  /-- Whether the reader stopped on a later line than that of the last piece. -/
  onNewLine : Bool := false

/-- The pieces of a plain scalar. `text` is what is read already, last character first, and `g`
the gap after it. Continued lines of a block start at `column` or behind it. -/
def plainPieces (flow : Bool) (column : Nat) : Nat → Text → Gap → Cursor → Option Read
  | 0, text, g, c => some ⟨text.reverse, c, g.broken⟩
  | n + 1, text, g, c =>
    if c.atDocumentEdge || c.rest.head? = some '#' then
      some ⟨text.reverse, c, g.broken⟩
    else
      match plainPiece flow c.rest with
      | none => none
      | some [] => some ⟨text.reverse, c, g.broken⟩
      | some piece =>
        let text := piece.reverse ++ (g.text.reverse ++ text)
        let c := c.advance piece.length
        match Gap.take column n {} c with
        | none => none
        | some (g, c) =>
          if !flow && g.broken && c.column < column then
            some ⟨text.reverse, c, true⟩
          else
            plainPieces flow column n text g c

/-- A plain scalar. -/
def plainScalar (flow : Bool) (column : Nat) (c : Cursor) : Option Read :=
  plainPieces flow column c.bound [] {} c

/-! ## Quoted scalars -/

def hexDigit? (c : Char) : Option Nat :=
  if '0' ≤ c ∧ c ≤ '9' then some (c.toNat - '0'.toNat)
  else if 'a' ≤ c ∧ c ≤ 'f' then some (c.toNat - 'a'.toNat + 10)
  else if 'A' ≤ c ∧ c ≤ 'F' then some (c.toNat - 'A'.toNat + 10)
  else none

/-- The number that hexadecimal digits denote. -/
def hexNumber? (digits : Text) : Option Nat :=
  digits.foldl (fun n d => n.bind fun n => (hexDigit? d).map (16 * n + ·)) (some 0)

/-- The character with the code point written in the first `n` characters of a text. -/
def codePoint? (n : Nat) (t : Text) : Option Char :=
  if t.length < n then
    none
  else
    match hexNumber? (t.take n) with
    | none => none
    | some v => if 0x10FFFF < v ∨ (0xD800 ≤ v ∧ v ≤ 0xDFFF) then none else some (Char.ofNat v)

/-- The character that stands for itself or another one after a backslash. -/
def escaped? : Char → Option Char
  | '0' => some '\x00'
  | 'a' => some '\x07'
  | 'b' => some '\x08'
  | 't' => some '\t'
  | '\t' => some '\t'
  | 'n' => some '\n'
  | 'v' => some '\x0b'
  | 'f' => some '\x0c'
  | 'r' => some '\r'
  | 'e' => some '\x1b'
  | ' ' => some ' '
  | '"' => some '"'
  | '/' => some '/'
  | '\\' => some '\\'
  | 'N' => some '\x85'
  | '_' => some '\xa0'
  | 'L' => some '\u2028'
  | 'P' => some '\u2029'
  | _ => none

/-- The character written after a backslash, and how many characters write it. -/
def escape? : Text → Option (Char × Nat)
  | [] => none
  | 'x' :: rest => (codePoint? 2 rest).map (·, 3)
  | 'u' :: rest => (codePoint? 4 rest).map (·, 5)
  | 'U' :: rest => (codePoint? 8 rest).map (·, 9)
  | c :: _ => (escaped? c).map (·, 1)

inductive Quote where
  | single
  | double
  deriving DecidableEq

def Quote.char : Quote → Char
  | single => '\''
  | double => '"'

/-- A quoted scalar up to the end of one of its pieces. -/
structure QuotedPiece where
  /-- What is read, last character first. -/
  text : Text
  cursor : Cursor
  /-- Whether the piece ends with an escaped line break. -/
  escapedBreak : Bool := false

/-- The piece of a quoted scalar up to white space or the closing quote; `text` is what is read
already, last character first. -/
def quotedPiece (q : Quote) : Nat → Text → Cursor → Option QuotedPiece
  | 0, text, c => some ⟨text, c, false⟩
  | n + 1, text, c =>
    match c.rest with
    | [] => some ⟨text, c, false⟩
    | ch :: rest =>
      if isBlank ch || isBreak ch then
        some ⟨text, c, false⟩
      else if q = .single && ch = '\'' && rest.head? = some '\'' then
        quotedPiece q n ('\'' :: text) (c.advance 2)
      else if ch = q.char then
        some ⟨text, c, false⟩
      else if q = .double && ch = '\\' then
        if rest.head?.any isBreak then
          some ⟨text, (c.advance 1).nextLine, true⟩
        else
          match escape? rest with
          | none => none
          | some (d, k) => quotedPiece q n (d :: text) (c.advance (k + 1))
      else
        quotedPiece q n (ch :: text) (c.advance 1)

/-- The pieces of a quoted scalar up to and with the closing quote; `text` is what is read
already, last character first. -/
def quotedPieces (q : Quote) : Nat → Text → Cursor → Option Read
  | 0, _, _ => none
  | n + 1, text, c =>
    if c.atDocumentEdge || c.rest = [] then
      none
    else
      match quotedPiece q n text c with
      | none => none
      | some piece =>
        let c := piece.cursor
        if c.rest.head? = some q.char then
          some ⟨piece.text.reverse, c.advance 1, false⟩
        else
          match Gap.take 0 n { broken := piece.escapedBreak } c with
          | none => none
          | some (g, c) => quotedPieces q n (g.text.reverse ++ piece.text) c

/-- A scalar between quotes, from its opening quote. -/
def quotedScalar (q : Quote) (c : Cursor) : Option Read :=
  quotedPieces q c.bound [] (c.advance 1)

/-! ## Block scalars -/

inductive Chomp where
  | strip
  | clip
  | keep
  deriving DecidableEq

def chomp? : Char → Option Chomp
  | '-' => some .strip
  | '+' => some .keep
  | _ => none

/-- The indentation that a digit asks for; zero is none. -/
def indentDigit? (c : Char) : Option (Option Nat) :=
  if c.isDigit then
    if c = '0' then some none else some (some (c.toNat - '0'.toNat))
  else
    none

/-- What the head of a block scalar says: how its end is cut and how deep it is indented (zero
when it does not say), with the cursor after both signs. -/
def blockHead? (c : Cursor) : Option (Chomp × Nat × Cursor) :=
  match c.rest with
  | [] => some (.clip, 0, c)
  | first :: rest =>
    match chomp? first with
    | some chomp =>
      match rest.head?.bind indentDigit? with
      | some none => none
      | some (some n) => some (chomp, n, c.advance 2)
      | none => some (chomp, 0, c.advance 1)
    | none =>
      match indentDigit? first with
      | some none => none
      | some (some n) =>
        match rest.head?.bind chomp? with
        | some chomp => some (chomp, n, c.advance 2)
        | none => some (.clip, n, c.advance 1)
      | none => some (.clip, 0, c)

/-- Empty lines of a block scalar. -/
structure Emptied where
  /-- The deepest indentation seen. -/
  widest : Nat
  breaks : Text
  cursor : Cursor

/-- The empty lines here and the indentation after them, up to `indent` blanks a line (any number
for zero). A tab in the indentation is not allowed. -/
def emptyLines (indent : Nat) : Nat → Nat → Text → Cursor → Option Emptied
  | 0, _, _, _ => none
  | n + 1, widest, breaks, c =>
    let blanks := (c.rest.takeWhile (· = ' ')).length
    let c := c.advance (if indent = 0 then blanks else min blanks (indent - c.column))
    let widest := max widest c.column
    if (indent = 0 ∨ c.column < indent) ∧ c.rest.head? = some '\t' then
      none
    else if c.atBreak then
      emptyLines indent n widest (breaks ++ c.lineBreak) c.nextLine
    else
      some ⟨widest, breaks, c⟩

/-- What has been read of a block scalar. -/
structure BlockText where
  /-- The lines so far, last character first. -/
  text : Text := []
  /-- The line break after the last line. -/
  ending : Text := []
  /-- The empty lines after it. -/
  breaks : Text := []
  /-- Whether the last line started with a blank. -/
  blankLine : Bool := false

/-- The block with the pending line breaks made part of its text, last character first. In a
folded block a line feed between two lines that start with no blank becomes a blank, or vanishes
before empty lines. -/
def BlockText.join (folded blankNext : Bool) (b : BlockText) : Text :=
  if folded && b.ending.head? = some '\n' && !b.blankLine && !blankNext then
    (if b.breaks = [] then [' '] else b.breaks.reverse) ++ b.text
  else
    b.breaks.reverse ++ (b.ending.reverse ++ b.text)

/-- The lines of a block scalar, all indented by `indent`. -/
def blockLines (folded : Bool) (indent : Nat) : Nat → BlockText → Cursor →
    Option (BlockText × Cursor)
  | 0, b, c => some (b, c)
  | n + 1, b, c =>
    if c.column = indent && c.rest ≠ [] then
      let blankNext := c.rest.head?.any isBlank
      let line := c.rest.takeWhile (!isBreak ·)
      let c := c.advance line.length
      let text := line.reverse ++ b.join folded blankNext
      let ending := c.lineBreak
      match emptyLines indent c.bound 0 [] c.nextLine with
      | none => none
      | some e => blockLines folded indent n ⟨text, ending, e.breaks, blankNext⟩ e.cursor
    else
      some (b, c)

/-- The end of a block cut as its head says. -/
def BlockText.chomp (b : BlockText) : Chomp → Text
  | .strip => b.text.reverse
  | .clip => b.text.reverse ++ b.ending
  | .keep => b.text.reverse ++ b.ending ++ b.breaks

/-- A block scalar from its indicator. Columns below `column` belong to what surrounds it. -/
def blockScalar (folded : Bool) (column : Nat) (c : Cursor) : Option Read :=
  match blockHead? (c.advance 1) with
  | none => none
  | some (chomp, asked, c) =>
    match c.lineEnd? with
    | none => none
    | some c =>
      let given := if asked = 0 then 0 else column - 1 + asked
      match emptyLines given c.bound 0 [] c with
      | none => none
      | some e =>
        let indent := if given = 0 then max (max e.widest column) 1 else given
        match blockLines folded indent e.cursor.bound { breaks := e.breaks }
            e.cursor with
        | none => none
        | some (b, c) => some ⟨b.chomp chomp, c, false⟩

end MessageDocs.Yaml
