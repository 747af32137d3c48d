import MessageDocs.Path
import MessageDocs.Text.Utf8

/-! # File trees

A file tree lists its files and directories under their locations, the names on the way from the
root. The root is a directory that is not listed; every other location is listed at most once,
and lies in a listed directory.

* `FileTree.node?` looks a location up, `FileTree.below` lists what lies at and under one.
* `FileTree.putFile` and `FileTree.putDirectory` add to a directory, `FileTree.remove` takes a
  location away with all that lies under it.
-/

set_option autoImplicit false

namespace MessageDocs

/-- The names on the way from the root. -/
abbrev Location := List Text

/-- What a file holds. Bytes that are no UTF-8 text are kept as they are. -/
inductive Contents where
  | text (t : Text)
  | binary (bytes : List UInt8)
  deriving DecidableEq, Repr

namespace Contents

def ofBytes (bytes : List UInt8) : Contents :=
  match Text.Utf8.decode? bytes with
  | some t => text t
  | none => binary bytes

/-- The text, with replacement characters for what is no text. -/
def shown : Contents → Text
  | text t => t
  | binary bytes => Text.Utf8.decodeLossy bytes

end Contents

inductive Node where
  | directory
  | file (contents : Contents)
  deriving DecidableEq, Repr

/-- Whether a text can name a file or directory. -/
def IsName (n : Text) : Prop :=
  Path.Component.ofSegment? n = some (.name n) ∧ n.contains '/' = false ∧
    n.contains '\x00' = false

instance (n : Text) : Decidable (IsName n) :=
  inferInstanceAs (Decidable (_ ∧ _ ∧ _))

structure FileTree where
  entries : List (Location × Node)
  /-- No location is listed twice. -/
  nodup : (entries.map Prod.fst).Nodup
  /-- Locations consist of names. -/
  named : ∀ e ∈ entries, ∀ n ∈ e.1, IsName n
  /-- What is listed lies in the root or in a listed directory. -/
  nested : ∀ e ∈ entries,
    e.1 ≠ [] ∧ (e.1.dropLast = [] ∨ (e.1.dropLast, Node.directory) ∈ entries)

namespace FileTree

def empty : FileTree where
  entries := []
  nodup := List.nodup_nil
  named := fun _ he => nomatch he
  nested := fun _ he => nomatch he

/-! ## Looking up -/

def node? (t : FileTree) (loc : Location) : Option Node :=
  if loc = [] then some .directory
  else (t.entries.find? (·.1 = loc)).map Prod.snd

/-- The nodes at a location and under it, with the way to them from there. -/
def below (t : FileTree) (loc : Location) : List (Location × Node) :=
  t.entries.filterMap fun e => (loc.isPrefixOf? e.1).map fun rest => (rest, e.2)

theorem mem_of_node? {t : FileTree} {loc : Location} {n : Node} (h : t.node? loc = some n) :
    (loc = [] ∧ n = .directory) ∨ (loc, n) ∈ t.entries := by
  unfold node? at h
  split at h
  · next root => exact Or.inl ⟨root, (Option.some.inj h).symm⟩
  · obtain ⟨e, he, rfl⟩ := Option.map_eq_some_iff.mp h
    have at_loc : e.1 = loc := by simpa using List.find?_some he
    have listed := List.mem_of_find?_eq_some he
    rw [← at_loc]
    exact Or.inr listed

theorem not_mem_of_node?_none {t : FileTree} {loc : Location} (h : t.node? loc = none) :
    loc ≠ [] ∧ loc ∉ t.entries.map Prod.fst := by
  unfold node? at h
  split at h
  · cases h
  · next notRoot =>
    refine ⟨notRoot, ?_⟩
    intro listed
    obtain ⟨e, he, at_loc⟩ := List.mem_map.mp listed
    have missing := List.find?_eq_none.mp (Option.map_eq_none_iff.mp h) e he
    exact missing (by simpa using at_loc)

/-! ## Adding -/

/-- A tree with a new node in one of its directories. -/
def add (t : FileTree) (loc : Location) (n : Node) (isNew : t.node? loc = none)
    (inside : t.node? loc.dropLast = some .directory) (names : ∀ n ∈ loc, IsName n) : FileTree where
  entries := t.entries ++ [(loc, n)]
  nodup := by
    rw [List.map_append]
    refine List.nodup_append.mpr ⟨t.nodup, by simp, ?_⟩
    intro a ha b hb same
    rw [List.map_singleton, List.mem_singleton] at hb
    rw [same, hb] at ha
    exact (not_mem_of_node?_none isNew).2 ha
  named := by
    intro e he
    rcases List.mem_append.mp he with he | he
    · exact t.named e he
    · rw [List.mem_singleton.mp he]
      exact names
  nested := by
    intro e he
    rcases List.mem_append.mp he with he | he
    · obtain ⟨notRoot, parent⟩ := t.nested e he
      exact ⟨notRoot, parent.imp id (List.mem_append_left _)⟩
    · rw [List.mem_singleton.mp he]
      refine ⟨(not_mem_of_node?_none isNew).1, ?_⟩
      rcases mem_of_node? inside with ⟨root, _⟩ | listed
      · exact Or.inl root
      · exact Or.inr (List.mem_append_left _ listed)

/-! ## Replacing -/

/-- The entries with the file at a location given new contents. -/
def setContents (loc : Location) (c : Contents) (entries : List (Location × Node)) :
    List (Location × Node) :=
  entries.map fun e => if e.1 = loc then (e.1, .file c) else e

theorem map_fst_setContents (loc : Location) (c : Contents) (entries : List (Location × Node)) :
    (setContents loc c entries).map Prod.fst = entries.map Prod.fst := by
  rw [setContents, List.map_map]
  apply List.map_congr_left
  intro e _
  simp only [Function.comp_apply]
  split <;> rfl

theorem mem_setContents_of_ne {loc other : Location} {c : Contents} {n : Node}
    {entries : List (Location × Node)} (h : (other, n) ∈ entries) (apart : other ≠ loc) :
    (other, n) ∈ setContents loc c entries :=
  List.mem_map.mpr ⟨(other, n), h, if_neg apart⟩

theorem value_unique {entries : List (Location × Node)} (h : (entries.map Prod.fst).Nodup)
    {loc : Location} {m n : Node} (hm : (loc, m) ∈ entries) (hn : (loc, n) ∈ entries) :
    m = n := by
  induction entries with
  | nil => cases hm
  | cons e rest ih =>
    rw [List.map_cons, List.nodup_cons] at h
    rcases List.mem_cons.mp hm with hm | hm
    · rcases List.mem_cons.mp hn with hn | hn
      · exact congrArg Prod.snd (hm.trans hn.symm)
      · exact absurd (List.mem_map_of_mem hn) (by rw [← hm] at h; exact h.1)
    · rcases List.mem_cons.mp hn with hn | hn
      · exact absurd (List.mem_map_of_mem hm) (by rw [← hn] at h; exact h.1)
      · exact ih h.2 hm hn

/-- A tree in which a file has been given new contents. -/
def replace (t : FileTree) (loc : Location) (c : Contents)
    (isFile : ∃ old, t.node? loc = some (.file old)) : FileTree where
  entries := setContents loc c t.entries
  nodup := by
    rw [map_fst_setContents]
    exact t.nodup
  named := by
    intro e he
    obtain ⟨e', he', rfl⟩ := List.mem_map.mp he
    split <;> exact t.named e' he'
  nested := by
    obtain ⟨old, isFile⟩ := isFile
    intro e he
    obtain ⟨e', he', rfl⟩ := List.mem_map.mp he
    have loc_eq : (if e'.1 = loc then (e'.1, Node.file c) else e').1 = e'.1 := by
      split <;> rfl
    rw [loc_eq]
    obtain ⟨notRoot, parent⟩ := t.nested e' he'
    refine ⟨notRoot, parent.imp id fun listed => mem_setContents_of_ne listed ?_⟩
    intro at_loc
    rcases mem_of_node? isFile with ⟨_, absurdity⟩ | file
    · cases absurdity
    · rw [at_loc] at listed
      cases value_unique t.nodup listed file

/-! ## Writing -/

/-- The tree with a file at a location whose directory exists; nothing where a directory is. -/
def putFile (t : FileTree) (loc : Location) (c : Contents) : Option FileTree :=
  match h : t.node? loc with
  | some (.file old) => some (t.replace loc c ⟨old, h⟩)
  | some .directory => none
  | none =>
    if inside : t.node? loc.dropLast = some .directory ∧ ∀ n ∈ loc, IsName n then
      some (t.add loc (.file c) h inside.1 inside.2)
    else
      none

/-- The tree with a new directory in an existing one. -/
def putDirectory (t : FileTree) (loc : Location) : Option FileTree :=
  if h : t.node? loc = none ∧ t.node? loc.dropLast = some .directory ∧ ∀ n ∈ loc, IsName n then
    some (t.add loc .directory h.1 h.2.1 h.2.2)
  else
    none

/-- The tree without a location and all that lies under it. -/
def remove (t : FileTree) (loc : Location) : FileTree where
  entries := t.entries.filter fun e => !loc.isPrefixOf e.1
  nodup := List.Pairwise.sublist (List.filter_sublist.map _) t.nodup
  named := fun e he => t.named e (List.mem_filter.mp he).1
  nested := by
    intro e he
    obtain ⟨listed, kept⟩ := List.mem_filter.mp he
    obtain ⟨notRoot, parent⟩ := t.nested e listed
    refine ⟨notRoot, parent.imp id fun dir => List.mem_filter.mpr ⟨dir, ?_⟩⟩
    rw [Bool.not_eq_true'] at kept ⊢
    rw [Bool.eq_false_iff] at kept ⊢
    intro under
    apply kept
    rw [List.isPrefixOf_iff_prefix] at under ⊢
    exact under.trans (List.dropLast_prefix _)

end FileTree

end MessageDocs
