import MessageDocs.Text

/-! # Message headers

The comment lines at the top of a schema describe its message. The lines up to the first blank
one, joined by blanks, are the short description; the lines after it are the long one, in which
every line ends with a line feed. Blank lines before the first text do not count.
-/

set_option autoImplicit false

namespace MessageDocs

/-- The two descriptions of a message. -/
structure Header where
  short : Text := []
  long : Text := []
  deriving DecidableEq, Repr

namespace Header

/-- Each line followed by a line feed. -/
def endLines (lines : List Text) : Text :=
  (lines.map (· ++ ['\n'])).flatten

/-- The descriptions that header lines, with their comment marks removed, stand for. -/
def ofLines (lines : List Text) : Header :=
  let text := (lines.map Text.trim).dropWhile (· = [])
  { short := Text.join " " (text.takeWhile (· ≠ []))
    long := endLines (text.dropWhile (· ≠ [])).tail }

end Header

end MessageDocs
