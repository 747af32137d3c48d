import MessageDocs.Text

/-! # Tables

A table is a header line, a rule, and one line per row; its cells are separated by ` | `. A `|`
inside a cell is written with a backslash before it, so that it does not end the cell.
-/

set_option autoImplicit false

namespace MessageDocs.Page.Table

/-- The text of a cell with its cell separators escaped. -/
def escape (cell : Text) : Text :=
  cell.flatMap fun c => if c = '|' then ['\\', '|'] else [c]

/-- One line of a table, from cells that are already escaped. -/
def row (cells : List Text) : Text :=
  Text.join " | " cells ++ ['\n']

/-- The line between the header and the rows. -/
def rule (columns : Nat) : Text :=
  row (List.replicate columns "---".toList)

/-- A whole table with the empty line after it. -/
def render (columns : List Text) (rows : List (List Text)) : Text :=
  row columns ++ rule columns.length ++ (rows.map row).flatten ++ ['\n']

end MessageDocs.Page.Table
