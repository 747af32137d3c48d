import MessageDocs.Text

/-! # Code blocks

A code block stands between two fences, runs of backticks longer than every run inside the block,
so that nothing in the block can end it.
-/

set_option autoImplicit false

namespace MessageDocs.Page.Fence

def tick : Char := '\x60'

/-- The length of the longest run of backticks; `run` of them precede the text. -/
def longestRunFrom (run : Nat) : Text → Nat
  | [] => run
  | c :: rest => if c = tick then longestRunFrom (run + 1) rest else max run (longestRunFrom 0 rest)

def longestRun (t : Text) : Nat :=
  longestRunFrom 0 t

/-- At least three backticks, and one more than any run in the text. -/
def fence (t : Text) : Text :=
  List.replicate (max (longestRun t) 2 + 1) tick

/-- The block of a text in the given language. -/
def block (language t : Text) : Text :=
  fence t ++ language ++ "\n" ++ t ++ "\n" ++ fence t ++ "\n"

end MessageDocs.Page.Fence
