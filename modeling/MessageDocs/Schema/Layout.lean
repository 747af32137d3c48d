import MessageDocs.Text

/-! # Layout of a schema file

White space in a schema only separates words, so every line is read with its words set apart by
one blank. The comment lines at the top of the file, from the first line that is not blank, are
the header; each line after them is a body line and keeps its number.

* `Layout.ofSource` divides a file into header and body.
* `BodyLine.ofText` says what kind of line a body line is.
-/

set_option autoImplicit false

namespace MessageDocs.Schema

/-- A line with its number, counted from one. The number is not bounded: one of 32 bits agrees with
it in a text of fewer than `2 ^ 32` lines. -/
structure NumberedLine where
  number : Nat
  text : Text
  deriving DecidableEq, Repr

namespace NumberedLine

def isBlank (l : NumberedLine) : Bool :=
  l.text.isEmpty

def isComment (l : NumberedLine) : Bool :=
  l.text.head? = some '#'

/-- Lines with their numbers, the first of which is given. -/
def numberFrom (n : Nat) : List Text → List NumberedLine
  | [] => []
  | line :: lines => ⟨n, line⟩ :: numberFrom (n + 1) lines

end NumberedLine

/-- The lines of a source, each with one blank between its words. -/
def collapsedLines (source : Text) : List Text :=
  (Text.lines source).map Text.collapse

structure Layout where
  /-- The header lines without their comment marks. -/
  header : List Text
  body : List NumberedLine
  deriving DecidableEq, Repr

namespace Layout

def ofLines (lines : List NumberedLine) : Layout :=
  let lines := lines.dropWhile NumberedLine.isBlank
  { header := (lines.takeWhile NumberedLine.isComment).map fun l => Text.trim l.text.tail
    body := lines.dropWhile NumberedLine.isComment }

def ofSource (source : Text) : Layout :=
  ofLines (NumberedLine.numberFrom 1 (collapsedLines source))

end Layout

/-! ## Body lines -/

/-- What a line after the header can be. -/
inductive BodyLine where
  | blank
  /-- The start of a topics section, which is not documented. -/
  | topics
  /-- A comment that is not documented; its text may be empty. -/
  | comment (text : Text)
  | declaration (line : Text)
  deriving DecidableEq, Repr

def topicsMark : Text := "# TOPICS"

def BodyLine.ofText (line : Text) : BodyLine :=
  if Text.startsWith topicsMark line then
    topics
  else
    match line with
    | [] => blank
    | '#' :: rest => comment (Text.trim rest)
    | _ => declaration line

end MessageDocs.Schema
