import MessageDocs.Text

/-! # Rosters: entries known by name, in order of arrival

A roster is a list in which no two entries have the same name. `Roster.put` replaces the entry of
the same name where it stands and appends an entry whose name is new.
-/

set_option autoImplicit false

namespace MessageDocs.Roster

variable {α : Type}

def put (nameOf : α → Text) (entry : α) : List α → List α
  | [] => [entry]
  | first :: rest =>
    if nameOf first = nameOf entry then entry :: rest else first :: put nameOf entry rest

def find? (nameOf : α → Text) (roster : List α) (name : Text) : Option α :=
  List.find? (fun entry => nameOf entry = name) roster

/-- The roster of a list of arrivals. -/
def ofList (nameOf : α → Text) (arrivals : List α) : List α :=
  arrivals.foldl (fun roster entry => put nameOf entry roster) []

end MessageDocs.Roster
