import MessageDocs.Text

/-! # Maps keyed by names, in ascending order

A `NameMap` lists its entries in strictly ascending order of their names, so two maps with the
same entries are the same list, and printing a map needs no sorting. Names are compared character
by character, which is the order of their UTF-8 forms.

* `NameMap.insert` replaces the value of a name that is already there.
* `NameMap.union` inserts every entry of the second map into the first.
-/

set_option autoImplicit false

namespace MessageDocs

/-- A finite map from names, listed in strictly ascending order. -/
structure NameMap (α : Type) where
  entries : List (Text × α)
  ascending : entries.Pairwise (fun a b => a.1 < b.1)

/-- A finite set of names, listed in strictly ascending order. -/
abbrev NameSet := NameMap Unit

namespace NameMap

variable {α : Type}

theorem ext {m n : NameMap α} (h : m.entries = n.entries) : m = n := by
  cases m
  cases n
  cases h
  rfl

instance [DecidableEq α] : DecidableEq (NameMap α) := fun m n =>
  if h : m.entries = n.entries then
    isTrue (ext h)
  else
    isFalse fun e => h (by rw [e])

def empty : NameMap α where
  entries := []
  ascending := List.Pairwise.nil

/-! ## Insertion -/

/-- The entries with a name set to a value. -/
def insertEntry (name : Text) (value : α) : List (Text × α) → List (Text × α)
  | [] => [(name, value)]
  | entry :: rest =>
    if name < entry.1 then
      (name, value) :: entry :: rest
    else if name = entry.1 then
      (name, value) :: rest
    else
      entry :: insertEntry name value rest

theorem mem_insertEntry_name {name : Text} {value : α} {entries : List (Text × α)}
    {e : Text × α} (h : e ∈ insertEntry name value entries) :
    e.1 = name ∨ e ∈ entries := by
  induction entries with
  | nil =>
    simp only [insertEntry, List.mem_singleton] at h
    exact Or.inl (by rw [h])
  | cons entry rest ih =>
    simp only [insertEntry] at h
    split at h
    · rcases List.mem_cons.mp h with h | h
      · exact Or.inl (by rw [h])
      · exact Or.inr h
    · split at h
      · rcases List.mem_cons.mp h with h | h
        · exact Or.inl (by rw [h])
        · exact Or.inr (List.mem_cons_of_mem _ h)
      · rcases List.mem_cons.mp h with h | h
        · exact Or.inr (by rw [h]; exact List.mem_cons_self)
        · exact (ih h).imp id (List.mem_cons_of_mem _)

theorem insertEntry_ascending {name : Text} {value : α} {entries : List (Text × α)}
    (h : entries.Pairwise (fun a b => a.1 < b.1)) :
    (insertEntry name value entries).Pairwise (fun a b => a.1 < b.1) := by
  induction entries with
  | nil => exact List.pairwise_singleton _ _
  | cons entry rest ih =>
    obtain ⟨head, tail⟩ := List.pairwise_cons.mp h
    simp only [insertEntry]
    split
    · next before =>
      refine List.pairwise_cons.mpr ⟨?_, h⟩
      intro e he
      rcases List.mem_cons.mp he with he | he
      · rw [he]
        exact before
      · exact List.lt_trans before (head e he)
    · next notBefore =>
      split
      · next same =>
        refine List.pairwise_cons.mpr ⟨?_, tail⟩
        intro e he
        rw [same]
        exact head e he
      · next other =>
        refine List.pairwise_cons.mpr ⟨?_, ih tail⟩
        intro e he
        rcases mem_insertEntry_name he with he | he
        · rw [he]
          rcases Std.lt_trichotomy name entry.1 with lt | eq | gt
          · exact absurd lt notBefore
          · exact absurd eq other
          · exact gt
        · exact head e he

def insert (m : NameMap α) (name : Text) (value : α) : NameMap α where
  entries := insertEntry name value m.entries
  ascending := insertEntry_ascending m.ascending

/-- The entries inserted one after the other, so that the last value of a name stays. -/
def insertAll (m : NameMap α) (entries : List (Text × α)) : NameMap α :=
  entries.foldl (fun m e => m.insert e.1 e.2) m

def union (m n : NameMap α) : NameMap α :=
  m.insertAll n.entries

/-! ## Looking up -/

def find? (m : NameMap α) (name : Text) : Option α :=
  (m.entries.find? fun e => e.1 = name).map Prod.snd

def names (m : NameMap α) : List Text :=
  m.entries.map Prod.fst

def contains (m : NameMap α) (name : Text) : Bool :=
  m.names.contains name

end NameMap

namespace NameSet

def add (s : NameSet) (name : Text) : NameSet :=
  s.insert name ()

def ofList (names : List Text) : NameSet :=
  names.foldl add NameMap.empty

end NameSet

end MessageDocs
