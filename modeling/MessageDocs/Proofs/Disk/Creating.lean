import MessageDocs.Proofs.Disk.Spelling

/-! # Directories on the way to a path

A directory is made where its path leads, and before it those that it lies in. So as long as the
path never leads up, nothing is made but on the way to it.

* `Disk.createDirectory_eq_ok`: what a disk is after one directory has been made.
* `Disk.isPrefix_of_createUpTo`: where directories have been made that were missing.
* `Disk.directory_of_locate_join`: a directory in which a name has a place.
-/

set_option autoImplicit false

namespace MessageDocs

open MessageDocs.Path

namespace Path

/-! ## Parents -/

theorem Descends.parent {p q : Path} (h : p.Descends) (up : p.parent? = some q) : q.Descends := by
  rw [descends_iff] at h ⊢
  rw [componentsOf_parent up]
  exact fun back => h (List.mem_of_mem_dropLast back)

theorem target_parent_isPrefix {p q : Path} (h : p.Descends) (up : p.parent? = some q)
    (cwd : Location) : q.target cwd <+: p.target cwd := by
  obtain ⟨names, components, target⟩ := h.exists_names cwd
  rw [target, target_eq_steps, componentsOf_parent up, components, ← List.map_dropLast,
    steps_names, start, start, isAbsolute_parent up]
  exact (List.prefix_append_right_inj _).mpr (List.dropLast_prefix names)

/-- Slashes at the end of a path do not count. -/
theorem componentsOf_dropTail (t : Text) :
    componentsOf (segmentsOf (Text.dropTail (· == '/') t)) = componentsOf (segmentsOf t) := by
  induction t using List.reverseRecOn with
  | nil => rfl
  | append_singleton t c ih =>
    by_cases slash : c = '/'
    · have dropped : Text.dropTail (· == '/') (t ++ ['/']) = Text.dropTail (· == '/') t := by
        simp [Text.dropTail]
      rw [slash, dropped, ih, componentsOf_segmentsOf_append_slash]
      exact (List.append_nil _).symm
    · have kept : Text.dropTail (· == '/') (t ++ [c]) = t ++ [c] := by
        simp [Text.dropTail, slash]
      rw [kept]

end Path

namespace Disk

/-! ## Making directories -/

/-- **A directory that has been made** is where its path leads, and was missing. -/
theorem createDirectory_eq_ok {d d' : Disk} (entered : d.removed = 0) {p : Path}
    (h : d.createDirectory p = .ok d') :
    d.tree.node? (p.target d.cwd) = none ∧ ∀ other, d'.tree.node? other =
      if other = p.target d.cwd then some .directory else d.tree.node? other := by
  unfold createDirectory at h
  split at h
  · cases h
  · cases h
  · next loc led =>
    obtain ⟨-, -, -, loc, walked, ⟨⟩⟩ := (follow_eq_ok_iff entered).mp led
    have target : p.target d.cwd = loc := by
      rw [target_eq_steps, ← componentsOf_dropTail, steps_of_walk walked]
    rw [target]
    split at h
    · next tree put =>
      cases h
      exact ⟨(FileTree.node?_putDirectory put loc).1, fun other =>
        (FileTree.node?_putDirectory put other).2⟩
    · cases h

theorem isPrefix_of_createDirectory {d d' : Disk} (entered : d.removed = 0) {p : Path}
    (h : d.createDirectory p = .ok d') {loc : Location} (missing : d.tree.node? loc = none)
    (made : d'.tree.node? loc ≠ none) : loc <+: p.target d.cwd := by
  rw [(createDirectory_eq_ok entered h).2 loc] at made
  split at made
  · next here => exact here ▸ List.prefix_rfl
  · exact absurd missing made

/-- **Directories that have been made** for a path are on the way to it. -/
theorem isPrefix_of_createUpTo {n : Nat} {d : Disk} (entered : d.removed = 0) {p : Path}
    (h : p.Descends) {loc : Location} (missing : d.tree.node? loc = none)
    (made : (createUpTo n d p).disk.tree.node? loc ≠ none) : loc <+: p.target d.cwd := by
  induction n generalizing d p with
  | zero => exact absurd missing made
  | succ n ih =>
    unfold createUpTo at made
    split at made
    · exact absurd missing made
    · split at made
      · next created => exact isPrefix_of_createDirectory entered created missing made
      · split at made
        · exact absurd missing made
        · next parent up =>
          have above := target_parent_isPrefix h up d.cwd
          have gains := createUpTo_gains n d parent
          have inside := ih entered (h.parent up) missing
          -- What the parent has not brought about, the path itself has.
          split at made
          · next failed =>
            rw [failed] at inside
            exact (inside made).trans above
          · next d' done =>
            rw [done] at inside gains
            by_cases earlier : d'.tree.node? loc = none
            · split at made
              · next created =>
                rw [← gains.cwd]
                exact isPrefix_of_createDirectory (gains.removed.trans entered) created earlier
                  made
              · exact absurd earlier made
            · exact (inside earlier).trans above
      · exact absurd missing made

/-! ## Names in a directory -/

/-- **A directory in which a name has a place** is where its path leads. -/
theorem directory_of_locate_join {d : Disk} (entered : d.removed = 0) {p : Path} {n : Text}
    (name : IsName n) {loc : Location} (led : d.locate (p.join ⟨n⟩) = .ok (.location loc)) :
    d.tree.node? (p.target d.cwd) = some .directory ∧ loc = p.target d.cwd ++ [n] ∧
      (p.text ≠ [] → d.locate p = .ok (.location (p.target d.cwd))) := by
  have relative := isAbsolute_name name
  obtain ⟨-, plain, usable, loc, walked, ⟨⟩⟩ := (follow_eq_ok_iff entered).mp led
  have same_start : (p.join ⟨n⟩).start d.cwd = p.start d.cwd := by
    rw [start, start, isAbsolute_join relative]
  rw [same_start, ← ofNames_singleton] at walked
  obtain ⟨base, reached, dir, rfl⟩ := exists_of_walk_join (by simpa using name) walked
  have target : p.target d.cwd = base := by rw [target_eq_steps, steps_of_walk reached]
  rw [target]
  refine ⟨dir, rfl, fun some_text => (follow_eq_ok_iff entered).mpr ?_⟩
  exact ⟨some_text, fun nul => plain ((isPrefix_join p relative).subset nul),
    isUsable_of_join relative usable, base, reached, rfl⟩

end Disk

end MessageDocs
