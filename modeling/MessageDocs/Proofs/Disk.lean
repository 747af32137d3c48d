import MessageDocs.Disk
import MessageDocs.Proofs.FileTree
import MessageDocs.Proofs.Text.Split

/-! # What access by path leaves as it was

Writing a file changes no directory, so every path leads where it led before.

* `Disk.SamePlaces`: two disks on which all paths that lead somewhere lead to the same place.
* `Disk.write_eq_ok`: what a disk is after a file has been written.
* `Disk.GainsDirectories`: a disk after directories have been made.
* `Disk.locate_join`: a path that ends with a name leads to a location that does.
-/

set_option autoImplicit false

namespace MessageDocs.Disk

open FileTree

/-! ## Following the same path -/

theorem walk_of_directories {t t' : FileTree}
    (kept : ∀ loc, t.node? loc = some .directory → t'.node? loc = some .directory)
    {segments : List Text} {loc l : Location} (h : walk t loc segments = .ok l) :
    walk t' loc segments = .ok l := by
  induction segments generalizing loc with
  | nil => exact h
  | cons segment segments ih =>
    rw [walk] at h ⊢
    cases here : t.node? loc with
    | none =>
      rw [here] at h
      cases h
    | some node =>
      cases node with
      | file c =>
        rw [here] at h
        cases h
      | directory =>
        rw [here] at h
        rw [kept loc here]
        dsimp only at h ⊢
        split at h
        · exact ih h
        · split at h
          · cases h
          · next short =>
            rw [if_neg short]
            exact ih h
        · exact ih h

/-- Two disks that differ in what their files hold only, as far as paths are concerned. -/
structure SamePlaces (d d' : Disk) : Prop where
  cwd : d'.cwd = d.cwd
  removed : d'.removed = d.removed
  directories : SameDirectories d.tree d'.tree

theorem SamePlaces.refl (d : Disk) : SamePlaces d d :=
  ⟨rfl, rfl, fun _ => Iff.rfl⟩

theorem SamePlaces.symm {d d' : Disk} (h : SamePlaces d d') : SamePlaces d' d :=
  ⟨h.cwd.symm, h.removed.symm, h.directories.symm⟩

theorem SamePlaces.trans {d d' d'' : Disk} (h : SamePlaces d d') (h' : SamePlaces d' d'') :
    SamePlaces d d'' :=
  ⟨h'.cwd.trans h.cwd, h'.removed.trans h.removed, fun loc =>
    (h.directories loc).trans (h'.directories loc)⟩

theorem SamePlaces.eq_of_tree {d d' : Disk} (h : SamePlaces d d') (tree : d'.tree = d.tree) :
    d' = d := by
  obtain ⟨cwd, removed, -⟩ := h
  cases d
  cases d'
  cases tree
  cases cwd
  cases removed
  rfl

theorem SamePlaces.walk_of {d d' : Disk} (h : SamePlaces d d') {segments : List Text}
    {loc : Location} {dest : Destination}
    (led : (walk d.tree loc segments).map Destination.location = .ok dest) :
    (walk d'.tree loc segments).map Destination.location = .ok dest := by
  cases reached : walk d.tree loc segments with
  | error e =>
    rw [reached] at led
    cases led
  | ok l =>
    rw [walk_of_directories (fun loc => (h.directories loc).mp) reached, ← reached]
    exact led

theorem SamePlaces.locate_of {d d' : Disk} (h : SamePlaces d d') {p : Path} {dest : Destination}
    (led : d.locate p = .ok dest) : d'.locate p = .ok dest := by
  have kept : d'.kept = d.kept := by rw [Disk.kept, Disk.kept, h.cwd, h.removed]
  rw [locate, follow] at led ⊢
  by_cases empty : p.text = []
  · rw [if_pos empty] at led
    cases led
  · rw [if_neg empty] at led ⊢
    by_cases nul : p.text.contains '\x00' = true
    · rw [if_pos nul] at led
      cases led
    · rw [if_neg nul] at led ⊢
      by_cases long : (!isUsable p) = true
      · rw [if_pos long] at led
        cases led
      · rw [if_neg long] at led ⊢
        by_cases absolute : p.isAbsolute = true
        · rw [if_pos absolute] at led ⊢
          exact h.walk_of led
        · rw [if_neg absolute] at led ⊢
          rw [walkFromCwd] at led ⊢
          rw [h.removed, kept]
          split at led
          · cases led
          · exact led
          · exact h.walk_of led

theorem SamePlaces.locate_eq_ok_iff {d d' : Disk} (h : SamePlaces d d') {p : Path}
    {dest : Destination} : d'.locate p = .ok dest ↔ d.locate p = .ok dest :=
  ⟨h.symm.locate_of, h.locate_of⟩

/-! ## Writing -/

/-- **A file that has been written** is where its path leads, and nothing else has changed. -/
theorem write_eq_ok {d d' : Disk} {p : Path} {c : Contents} (h : d.write p c = .ok d') :
    ∃ loc, d.locate p = .ok (.location loc) ∧ SamePlaces d d' ∧
      ∀ other, d'.tree.node? other =
        if other = loc then some (.file c) else d.tree.node? other := by
  unfold write at h
  split at h
  · cases h
  · cases h
  · next loc led =>
    split at h
    · next tree put =>
      cases h
      exact ⟨loc, led, ⟨rfl, rfl, sameDirectories_putFile put⟩, node?_putFile put⟩
    · cases h

/-- A file that is there can be overwritten, which lists no other locations. -/
theorem exists_write {d : Disk} {p : Path} {loc : Location} {old : Contents}
    (led : d.locate p = .ok (.location loc)) (file : d.tree.node? loc = some (.file old))
    (c : Contents) :
    ∃ d', d.write p c = .ok d' ∧ d'.tree.entries.map Prod.fst = d.tree.entries.map Prod.fst := by
  obtain ⟨tree, put, keys⟩ := FileTree.exists_putFile file c
  refine ⟨{ d with tree := tree }, ?_, keys⟩
  rw [write, led]
  dsimp only
  rw [put]

theorem readText_eq_ok_iff {d : Disk} {p : Path} {loc : Location}
    (led : d.locate p = .ok (.location loc)) {t : Text} :
    d.readText p = .ok t ↔ d.tree.node? loc = some (.file (.text t)) := by
  unfold readText node
  rw [led]
  dsimp only
  cases d.tree.node? loc with
  | none => simp
  | some n =>
    cases n with
    | directory => simp
    | file c => cases c <;> simp

/-! ## Making directories -/

/-- A disk with more directories than another one, and no other change. -/
structure GainsDirectories (d d' : Disk) : Prop where
  cwd : d'.cwd = d.cwd
  removed : d'.removed = d.removed
  nodes : ∀ loc, d'.tree.node? loc = d.tree.node? loc ∨
    (d.tree.node? loc = none ∧ d'.tree.node? loc = some .directory)

theorem GainsDirectories.refl (d : Disk) : GainsDirectories d d :=
  ⟨rfl, rfl, fun _ => Or.inl rfl⟩

theorem GainsDirectories.trans {d d' d'' : Disk} (h : GainsDirectories d d')
    (h' : GainsDirectories d' d'') : GainsDirectories d d'' := by
  refine ⟨h'.cwd.trans h.cwd, h'.removed.trans h.removed, ?_⟩
  intro loc
  rcases h.nodes loc with same | ⟨new, made⟩
  · rw [← same]
    exact h'.nodes loc
  · rcases h'.nodes loc with same' | ⟨new', -⟩
    · exact Or.inr ⟨new, same'.trans made⟩
    · rw [made] at new'
      cases new'

theorem GainsDirectories.directory {d d' : Disk} (h : GainsDirectories d d') {loc : Location}
    (dir : d.tree.node? loc = some .directory) : d'.tree.node? loc = some .directory := by
  rcases h.nodes loc with same | ⟨-, made⟩
  · rw [same, dir]
  · exact made

theorem GainsDirectories.file_iff {d d' : Disk} (h : GainsDirectories d d') (loc : Location)
    (c : Contents) : d'.tree.node? loc = some (.file c) ↔ d.tree.node? loc = some (.file c) := by
  rcases h.nodes loc with same | ⟨new, made⟩
  · rw [same]
  · rw [new, made]
    simp

theorem createDirectory_gains {d d' : Disk} {p : Path} (h : d.createDirectory p = .ok d') :
    GainsDirectories d d' := by
  unfold createDirectory at h
  split at h
  · cases h
  · cases h
  · next loc led =>
    split at h
    · next tree put =>
      cases h
      refine ⟨rfl, rfl, ?_⟩
      intro other
      obtain ⟨new, nodes⟩ := node?_putDirectory put other
      by_cases here : other = loc
      · rw [if_pos here] at nodes
        rw [here] at nodes ⊢
        exact Or.inr ⟨new, nodes⟩
      · rw [if_neg here] at nodes
        exact Or.inl nodes
    · cases h

theorem createUpTo_gains (n : Nat) (d : Disk) (p : Path) :
    GainsDirectories d (createUpTo n d p).disk := by
  induction n generalizing d p with
  | zero => exact GainsDirectories.refl d
  | succ n ih =>
    unfold createUpTo
    split
    · exact GainsDirectories.refl d
    · split
      · next made => exact createDirectory_gains made
      · split
        · exact GainsDirectories.refl d
        · next parent _ =>
          have above := ih d parent
          split
          · next failed =>
            rw [failed] at above
            exact above
          · next d' done =>
            rw [done] at above
            split
            · next made => exact above.trans (createDirectory_gains made)
            · exact above
      · exact GainsDirectories.refl d

/-! ## Paths that end with a name -/

theorem getLast?_walk {t : FileTree} {n : Text}
    (named : Path.Component.ofSegment? n = some (.name n)) {segments : List Text}
    {loc l : Location} (h : walk t loc (segments ++ [n]) = .ok l) :
    l.getLast? = some n := by
  induction segments generalizing loc with
  | nil =>
    rw [List.nil_append, walk] at h
    split at h
    · cases h
    · cases h
    · rw [named] at h
      dsimp only at h
      split at h
      · cases h
      · cases h
        exact List.getLast?_concat
  | cons segment segments ih =>
    rw [List.cons_append, walk] at h
    split at h
    · cases h
    · cases h
    · split at h
      · exact ih h
      · split at h
        · cases h
        · exact ih h
      · exact ih h

theorem leave_concat {n : Text} (named : Path.Component.ofSegment? n = some (.name n)) {k : Nat}
    {segments rest : List Text} (h : leave k (segments ++ [n]) = .ok (some rest)) :
    ∃ before, rest = before ++ [n] := by
  induction segments generalizing k with
  | nil =>
    cases k with
    | zero =>
      cases h
      exact ⟨[], rfl⟩
    | succ k =>
      rw [List.nil_append, leave, named] at h
      cases h
  | cons segment segments ih =>
    cases k with
    | zero =>
      cases h
      exact ⟨segment :: segments, rfl⟩
    | succ k =>
      rw [List.cons_append, leave] at h
      split at h
      · exact ih h
      · cases h
      · exact ih h

theorem segmentsOf_join (p : Path) {n : Text} (plain : '/' ∉ n) :
    ∃ before, Path.segmentsOf (p.join ⟨n⟩).text = before ++ [n] := by
  have single : Text.split (· == '/') n = [n] := Text.split_eq_singleton_of_not_mem plain
  have relative : ¬(⟨n⟩ : Path).isAbsolute = true := by
    intro absolute
    have start : n.head? = some '/' := by simpa [Path.isAbsolute] using absolute
    exact plain (List.mem_of_mem_head? start)
  have cut : ∀ before : Text, Text.split (· == '/') (before ++ '/' :: n) =
      Text.split (· == '/') before ++ [n] := by
    intro before
    rw [Text.split_append_cons (by rfl), single]
  rw [Path.join, if_neg relative, Path.segmentsOf]
  split
  · next ended =>
    rcases ended with empty | slash
    · exact ⟨[], by rw [empty]; exact single⟩
    · obtain ⟨before, eq⟩ := List.getLast?_eq_some_iff.mp slash
      exact ⟨_, by rw [eq, List.append_assoc]; exact cut before⟩
  · exact ⟨_, cut p.text⟩

/-- **A path that ends with a name** leads to a location that does. -/
theorem locate_join {d : Disk} {p : Path} {n : Text} (plain : '/' ∉ n)
    (named : Path.Component.ofSegment? n = some (.name n)) {loc : Location}
    (h : d.locate (p.join ⟨n⟩) = .ok (.location loc)) : loc.getLast? = some n := by
  obtain ⟨before, segments⟩ := segmentsOf_join p plain
  have walked : ∀ {start : Location} {segments : List Text},
      (walk d.tree start (segments ++ [n])).map Destination.location = .ok (.location loc) →
      loc.getLast? = some n := by
    intro start segments led
    cases reached : walk d.tree start (segments ++ [n]) with
    | error e =>
      rw [reached] at led
      cases led
    | ok l =>
      rw [reached] at led
      cases led
      exact getLast?_walk named reached
  rw [locate, segments, follow] at h
  split at h
  · cases h
  · split at h
    · cases h
    · split at h
      · cases h
      · split at h
        · exact walked h
        · rw [walkFromCwd] at h
          split at h
          · cases h
          · cases h
          · next left =>
            obtain ⟨before, rfl⟩ := leave_concat named left
            exact walked h

end MessageDocs.Disk
