import Mathlib.Data.List.Basic
import Mathlib.Data.List.Induction
import MessageDocs.FileTree

/-! # What a change of a file tree leaves as it was

* `FileTree.node?_putFile` and `FileTree.node?_putDirectory`: just the written location has another
  node.
* `FileTree.eq_of_node?`: two trees with the same locations and the same nodes.
* `FileTree.SameDirectories`: two trees with the same directories, as before and after a file is
  written.
-/

set_option autoImplicit false

namespace MessageDocs.FileTree

variable {t t' : FileTree} {loc : Location}

/-! ## Looking up -/

theorem node?_root (t : FileTree) : t.node? [] = some .directory := by
  rw [node?, if_pos rfl]

theorem node?_of_mem {n : Node} (h : (loc, n) ∈ t.entries) : t.node? loc = some n := by
  cases found : t.node? loc with
  | none => exact absurd (List.mem_map_of_mem h) (not_mem_of_node?_none found).2
  | some m =>
    rcases mem_of_node? found with ⟨root, -⟩ | listed
    · exact absurd root (t.nested _ h).1
    · rw [value_unique t.nodup listed h]

/-- What lies in something lies in a directory. -/
theorem directory_of_node? {rest : Location} {n : Node} (some_rest : rest ≠ [])
    (h : t.node? (loc ++ rest) = some n) : t.node? loc = some .directory := by
  induction rest using List.reverseRecOn generalizing n with
  | nil => exact absurd rfl some_rest
  | append_singleton rest name ih =>
    have parent : t.node? (loc ++ rest) = some .directory := by
      rcases mem_of_node? h with ⟨root, -⟩ | listed
      · simp at root
      · have nested := (t.nested _ listed).2
        dsimp only at nested
        rw [← List.append_assoc, List.dropLast_concat] at nested
        rcases nested with root | above
        · rw [root]
          exact node?_root t
        · exact node?_of_mem above
    cases rest with
    | nil => rwa [List.append_nil] at parent
    | cons first rest => exact ih (List.cons_ne_nil first rest) parent

theorem node?_of_ne_nil (h : loc ≠ []) (t : FileTree) :
    t.node? loc = (t.entries.find? (·.1 = loc)).map Prod.snd := by
  rw [node?, if_neg h]

theorem map_node? (t : FileTree) :
    (t.entries.map Prod.fst).map (fun loc => (loc, t.node? loc)) =
      t.entries.map fun e => (e.1, some e.2) := by
  rw [List.map_map]
  apply List.map_congr_left
  intro e he
  rw [Function.comp_apply, node?_of_mem he]

/-- **A tree** is known by its locations, in their order, and the nodes at them. -/
theorem eq_of_node? (keys : t'.entries.map Prod.fst = t.entries.map Prod.fst)
    (nodes : ∀ loc, t'.node? loc = t.node? loc) : t' = t := by
  have listed : t'.entries.map (fun e => (e.1, some e.2)) =
      t.entries.map fun e => (e.1, some e.2) := by
    rw [← map_node? t', ← map_node? t, keys]
    exact List.map_congr_left fun loc _ => by rw [nodes loc]
  have injective : Function.Injective fun e : Location × Node => (e.1, some e.2) := by
    rintro ⟨a, m⟩ ⟨b, n⟩ same
    simpa using same
  have entries : t'.entries = t.entries := List.map_injective_iff.mpr injective listed
  cases t
  cases t'
  cases entries
  rfl

theorem node?_add (isNew : t.node? loc = none) (n : Node)
    (inside : t.node? loc.dropLast = some .directory) (names : ∀ n ∈ loc, IsName n)
    (other : Location) :
    (t.add loc n isNew inside names).node? other =
      if other = loc then some n else t.node? other := by
  obtain ⟨notRoot, unlisted⟩ := not_mem_of_node?_none isNew
  by_cases root : other = []
  · rw [root, node?_root, node?_root, if_neg (Ne.symm notRoot)]
  · rw [node?_of_ne_nil root, node?_of_ne_nil root]
    show ((t.entries ++ [(loc, n)]).find? (·.1 = other)).map Prod.snd = _
    rw [List.find?_append]
    by_cases here : other = loc
    · have missing : t.entries.find? (·.1 = loc) = none := by
        rw [List.find?_eq_none]
        intro e he at_loc
        exact unlisted (List.mem_map.mpr ⟨e, he, by simpa using at_loc⟩)
      rw [here, missing, if_pos rfl]
      simp
    · rw [if_neg here]
      simp [Ne.symm here]

theorem find?_setContents (loc : Location) (c : Contents) (entries : List (Location × Node))
    (other : Location) :
    (setContents loc c entries).find? (·.1 = other) =
      (entries.find? (·.1 = other)).map fun e => if e.1 = loc then (e.1, .file c) else e := by
  have same : (fun e : Location × Node => decide ((if e.1 = loc then (e.1, Node.file c) else e).1 =
      other)) = fun e => decide (e.1 = other) := by
    funext e
    split <;> rfl
  rw [setContents, List.find?_map]
  exact congrArg (Option.map _) (congrArg (List.find? · entries) same)

theorem node?_replace (c : Contents) (isFile : ∃ old, t.node? loc = some (.file old))
    (other : Location) :
    (t.replace loc c isFile).node? other =
      if other = loc then some (.file c) else t.node? other := by
  obtain ⟨old, file⟩ := id isFile
  have notRoot : loc ≠ [] := by
    rintro rfl
    rw [node?_root] at file
    cases file
  by_cases root : other = []
  · rw [root, node?_root, node?_root, if_neg (Ne.symm notRoot)]
  · rw [node?_of_ne_nil root, node?_of_ne_nil root]
    show ((setContents loc c t.entries).find? (·.1 = other)).map Prod.snd = _
    rw [find?_setContents, Option.map_map]
    by_cases here : other = loc
    · rw [node?_of_ne_nil notRoot] at file
      obtain ⟨e, found, -⟩ := Option.map_eq_some_iff.mp file
      have at_loc : e.1 = loc := by simpa using List.find?_some found
      rw [here, found, if_pos rfl]
      simp [at_loc]
    · rw [if_neg here]
      cases found : t.entries.find? (·.1 = other) with
      | none => rfl
      | some e =>
        have at_other : e.1 = other := by simpa using List.find?_some found
        simp [at_other, here]

/-! ## Writing -/

theorem node?_putFile {c : Contents} (h : t.putFile loc c = some t') (other : Location) :
    t'.node? other = if other = loc then some (.file c) else t.node? other := by
  unfold putFile at h
  split at h
  · cases h
    exact node?_replace _ _ _
  · cases h
  · split at h
    · cases h
      exact node?_add _ _ _ _ _
    · cases h

theorem putFile_not_directory {c : Contents} (h : t.putFile loc c = some t') :
    t.node? loc ≠ some .directory := by
  unfold putFile at h
  split at h
  · next isFile => simp [isFile]
  · cases h
  · next isNew => simp [isNew]

/-- A file that is there can be overwritten, which lists no other locations. -/
theorem exists_putFile {old : Contents} (h : t.node? loc = some (.file old)) (c : Contents) :
    ∃ t', t.putFile loc c = some t' ∧ t'.entries.map Prod.fst = t.entries.map Prod.fst := by
  unfold putFile
  split
  · exact ⟨_, rfl, map_fst_setContents loc c t.entries⟩
  · next dir =>
    rw [dir] at h
    cases h
  · next missing =>
    rw [missing] at h
    cases h

theorem node?_putDirectory (h : t.putDirectory loc = some t') (other : Location) :
    t.node? loc = none ∧
      t'.node? other = if other = loc then some .directory else t.node? other := by
  unfold putDirectory at h
  split at h
  · next new =>
    cases h
    exact ⟨new.1, node?_add _ _ _ _ _⟩
  · cases h

/-! ## Directories -/

/-- Whether two trees have the same directories. -/
def SameDirectories (t t' : FileTree) : Prop :=
  ∀ loc, t.node? loc = some .directory ↔ t'.node? loc = some .directory

theorem SameDirectories.symm (h : SameDirectories t t') : SameDirectories t' t :=
  fun loc => (h loc).symm

theorem sameDirectories_putFile {c : Contents} (h : t.putFile loc c = some t') :
    SameDirectories t t' := by
  intro other
  rw [node?_putFile h]
  by_cases here : other = loc
  · rw [if_pos here, here]
    exact iff_of_false (putFile_not_directory h) (by simp)
  · rw [if_neg here]

end MessageDocs.FileTree
