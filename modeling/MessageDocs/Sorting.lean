/-! # Sorting by a key

Entries are put into ascending order of a key; entries of one key keep the order they had. The
recursion is structural, so that the order of given entries can be evaluated.
-/

set_option autoImplicit false

namespace MessageDocs

variable {α β : Type} [LT β] [DecidableLT β]

/-- Puts an entry before the first one whose key is not less than its own. -/
def insertBy (key : α → β) (entry : α) : List α → List α
  | [] => [entry]
  | first :: rest =>
    if key first < key entry then first :: insertBy key entry rest else entry :: first :: rest

/-- The entries in ascending order of a key. -/
def sortedBy (key : α → β) (entries : List α) : List α :=
  entries.foldr (insertBy key) []

end MessageDocs
