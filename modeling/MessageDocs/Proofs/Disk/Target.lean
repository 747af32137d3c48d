import MessageDocs.Disk
import MessageDocs.Proofs.Path.Remainder

/-! # Where a path leads

Without links a path that leads somewhere leads where its components do, whatever the disk holds.

* `Path.target`: where the components of a path lead from a working directory.
* `Disk.target_of_locate`: a path that can be followed leads to its target.
* `Path.target_join`: a joined path leads on from where the first one does.
* `Path.components_of_target`: an absolute path that `Path.Descends` has the names of its target.
* `Disk.node_eq_of_same_way`: what is at such a path depends on what is at and above its target.
-/

set_option autoImplicit false

namespace MessageDocs

namespace Path

/-! ## Targets -/

/-- Where a component leads from a location. -/
def Component.step (loc : Location) : Component → Location
  | root => []
  | here => loc
  | up => loc.dropLast
  | name n => loc ++ [n]

/-- Where components lead from a location, one after the other. -/
def steps (loc : Location) (components : List Component) : Location :=
  components.foldl Component.step loc

/-- Where a path leads from a working directory. -/
def target (cwd : Location) (p : Path) : Location :=
  steps cwd p.components

theorem steps_append (loc : Location) (a b : List Component) :
    steps loc (a ++ b) = steps (steps loc a) b :=
  List.foldl_append

theorem steps_names (loc : Location) (names : List Text) :
    steps loc (names.map .name) = loc ++ names := by
  induction names generalizing loc with
  | nil => exact (List.append_nil loc).symm
  | cons n names ih =>
    change steps (loc ++ [n]) (names.map .name) = _
    rw [ih, List.append_assoc, List.singleton_append]

theorem target_of_isAbsolute {p : Path} (h : p.isAbsolute = true) (cwd : Location) :
    p.target cwd = steps [] (componentsOf (segmentsOf p.text)) := by
  rw [target, components_of_isAbsolute h]
  rfl

theorem target_of_not_isAbsolute {p : Path} (h : p.isAbsolute = false) (cwd : Location) :
    p.target cwd = steps cwd (componentsOf (segmentsOf p.text)) := by
  rw [target, components_eq, steps_append]
  rcases lead_of_not_isAbsolute h with none | here
  · rw [none]
    rfl
  · rw [here]
    rfl

/-- Where the way along a path starts. -/
def start (cwd : Location) (p : Path) : Location :=
  if p.isAbsolute then [] else cwd

theorem target_eq_steps (p : Path) (cwd : Location) :
    p.target cwd = steps (p.start cwd) (componentsOf (segmentsOf p.text)) := by
  rw [start]
  split
  · next absolute => exact target_of_isAbsolute absolute cwd
  · next relative => exact target_of_not_isAbsolute (Bool.eq_false_iff.mpr relative) cwd

/-- **A joined path** leads on from where the first one does. -/
theorem target_join (p : Path) {q : Path} (h : q.isAbsolute = false) (cwd : Location) :
    (p.join q).target cwd = q.target (p.target cwd) := by
  rw [target_of_not_isAbsolute h]
  cases start : p.isAbsolute with
  | true =>
    rw [target_of_isAbsolute ((isAbsolute_join h).trans start), target_of_isAbsolute start,
      componentsOf_join p h, steps_append]
  | false =>
    rw [target_of_not_isAbsolute ((isAbsolute_join h).trans start),
      target_of_not_isAbsolute start, componentsOf_join p h, steps_append]

theorem target_ofNames {names : List Text} (h : ∀ n ∈ names, IsName n) (cwd : Location) :
    (ofNames names).target cwd = cwd ++ names := by
  rw [target_of_not_isAbsolute (isAbsolute_ofNames h), componentsOf_ofNames h, steps_names]

/-! ## Paths that never lead up -/

theorem componentsOf_eq_names {segments : List Text} (h : .up ∉ componentsOf segments) :
    ∃ names : List Text, componentsOf segments = names.map .name := by
  induction segments with
  | nil => exact ⟨[], rfl⟩
  | cons segment segments ih =>
    have split : componentsOf (segment :: segments) =
        componentsOf [segment] ++ componentsOf segments :=
      componentsOf_append [segment] segments
    rw [split, List.mem_append, not_or] at h
    obtain ⟨names, eq⟩ := ih h.2
    have only := h.1
    rw [split, eq]
    cases stands : Component.ofSegment? segment with
    | none =>
      refine ⟨names, ?_⟩
      rw [componentsOf, List.filterMap_cons_none stands]
      rfl
    | some c =>
      rw [componentsOf, List.filterMap_cons_some stands] at only ⊢
      rcases up_or_name_of_ofSegment? stands with rfl | ⟨n, rfl⟩
      · simp at only
      · exact ⟨n :: names, rfl⟩

/-- A path that never leads up. -/
def Descends (p : Path) : Prop :=
  .up ∉ p.components

instance (p : Path) : Decidable p.Descends :=
  inferInstanceAs (Decidable (¬_))

theorem descends_iff {p : Path} : p.Descends ↔ .up ∉ componentsOf (segmentsOf p.text) := by
  rw [Descends, components_eq, List.mem_append, not_or]
  refine ⟨And.right, fun h => ⟨?_, h⟩⟩
  unfold parts
  split <;> simp

theorem Descends.join {p q : Path} (hp : p.Descends) (hq : q.Descends) : (p.join q).Descends := by
  cases replaced : q.isAbsolute with
  | true =>
    rw [Path.join, if_pos replaced]
    exact hq
  | false =>
    rw [descends_iff] at hp hq ⊢
    rw [componentsOf_join p replaced, List.mem_append, not_or]
    exact ⟨hp, hq⟩

theorem descends_absolute {names : List Text} (h : ∀ n ∈ names, IsName n) :
    (absolute names).Descends := by
  rw [Descends, components_absolute h]
  simp

theorem descends_ofNames {names : List Text} (h : ∀ n ∈ names, IsName n) :
    (ofNames names).Descends := by
  rw [Descends, components_ofNames h]
  simp

/-- **An absolute path that never leads up** has the names of its target. -/
theorem components_of_target {p : Path} (absolute : p.isAbsolute = true) (h : p.Descends)
    (cwd : Location) : p.components = .root :: (p.target cwd).map .name := by
  obtain ⟨names, eq⟩ := componentsOf_eq_names (descends_iff.mp h)
  rw [target_of_isAbsolute absolute, components_of_isAbsolute absolute, eq, steps_names,
    List.nil_append]

/-- A path that never leads up leads on by names from where it starts. -/
theorem Descends.exists_names {p : Path} (h : p.Descends) (cwd : Location) :
    ∃ names : List Text, componentsOf (segmentsOf p.text) = names.map .name ∧
      p.target cwd = p.start cwd ++ names := by
  obtain ⟨names, eq⟩ := componentsOf_eq_names (descends_iff.mp h)
  exact ⟨names, eq, by rw [target_eq_steps, eq, steps_names]⟩

section Contains

variable {p q : Path} (p_absolute : p.isAbsolute = true) (hp : p.Descends)
  (q_absolute : q.isAbsolute = true) (hq : q.Descends) (cwd : Location)

include p_absolute hp q_absolute hq

/-- Of two such paths, one contains the other when its target does. -/
theorem isPrefix_iff_target :
    p.components <+: q.components ↔ p.target cwd <+: q.target cwd := by
  rw [components_of_target p_absolute hp cwd, components_of_target q_absolute hq cwd,
    List.prefix_cons_inj]
  exact List.prefix_map_iff_of_injective fun _ _ same => Component.name.inj same

theorem same_of_target (h : p.target cwd = q.target cwd) : p.Same q := by
  rw [Same, components_of_target p_absolute hp cwd, components_of_target q_absolute hq cwd, h]

end Contains

end Path

namespace Disk

open MessageDocs.Path

/-! ## Following paths -/

theorem steps_of_walk {t : FileTree} {segments : List Text} {loc l : Location}
    (h : walk t loc segments = .ok l) : steps loc (componentsOf segments) = l := by
  induction segments generalizing loc with
  | nil =>
    cases h
    rfl
  | cons segment segments ih =>
    rw [walk] at h
    split at h
    · cases h
    · cases h
    · rw [componentsOf, List.filterMap_cons]
      cases stands : Component.ofSegment? segment with
      | none =>
        rw [stands] at h
        exact ih h
      | some c =>
        rw [stands] at h
        rcases up_or_name_of_ofSegment? stands with rfl | ⟨n, rfl⟩
        · exact ih h
        · dsimp only at h
          split at h
          · cases h
          · exact ih h

/-- **What is on the way** decides where segments lead that never lead up: in two trees with the
same nodes at and above the end of the way they lead to one place, or nowhere for one reason. -/
theorem walk_eq_of_same_way {t t' : FileTree} {segments : List Text} {loc : Location}
    (descends : .up ∉ componentsOf segments)
    (same : ∀ l, l <+: steps loc (componentsOf segments) → t'.node? l = t.node? l) :
    walk t' loc segments = walk t loc segments := by
  induction segments generalizing loc with
  | nil => rfl
  | cons segment segments ih =>
    have here : t'.node? loc = t.node? loc := by
      obtain ⟨names, eq⟩ := componentsOf_eq_names descends
      apply same
      rw [eq, steps_names]
      exact List.prefix_append loc names
    rw [walk, walk, here]
    rw [componentsOf, List.filterMap_cons] at descends same
    cases stands : Component.ofSegment? segment with
    | none =>
      rw [stands] at descends same
      rw [ih descends same]
    | some c =>
      rw [stands] at descends same
      rcases up_or_name_of_ofSegment? stands with rfl | ⟨n, rfl⟩
      · exact absurd List.mem_cons_self descends
      · have onward : walk t' (loc ++ [n]) segments = walk t (loc ++ [n]) segments :=
          ih (fun up => descends (List.mem_cons_of_mem _ up)) same
        dsimp only
        rw [onward]

/-- Segments that lead out of `n` removed directories go up `n` times. -/
theorem steps_of_leave {n : Nat} {segments rest : List Text}
    (h : leave n segments = .ok (some rest)) (loc : Location) :
    steps loc (componentsOf segments) =
      steps (loc.take (loc.length - n)) (componentsOf rest) := by
  induction n generalizing segments loc with
  | zero =>
    rw [leave] at h
    cases h
    rw [Nat.sub_zero, List.take_length]
  | succ n above =>
    -- Segments that lead nowhere leave no directory, so there may be any number of them.
    induction segments with
    | nil => cases h
    | cons segment segments ih =>
      rw [leave] at h
      rw [componentsOf, List.filterMap_cons]
      cases stands : Component.ofSegment? segment with
      | none =>
        rw [stands] at h
        exact ih h
      | some c =>
        rw [stands] at h
        rcases up_or_name_of_ofSegment? stands with rfl | ⟨n, rfl⟩
        · have fewer : loc.dropLast.take (loc.dropLast.length - n) =
              loc.take (loc.length - (n + 1)) := by
            rw [List.dropLast_eq_take, List.take_take, List.length_take]
            congr 1
            omega
          rw [← fewer]
          exact above h loc.dropLast
        · cases h

theorem isUsable_of_locate {d : Disk} {p : Path} {dest : Destination}
    (h : d.locate p = .ok dest) : isUsable p = true := by
  by_contra long
  rw [Bool.not_eq_true] at long
  rw [locate, follow] at h
  split at h
  · cases h
  · split at h
    · cases h
    · rw [long] at h
      cases h

/-- What is at a path: the removed working directory, or what the tree has where the path leads. -/
theorem node_eq_ok_iff {d : Disk} {p : Path} {n : Node} :
    d.node p = .ok n ↔ d.locate p = .ok .removedDirectory ∧ n = .directory ∨
      ∃ loc, d.locate p = .ok (.location loc) ∧ d.tree.node? loc = some n := by
  rw [node]
  cases d.locate p with
  | error e => simp
  | ok dest =>
    cases dest with
    | removedDirectory => simp [eq_comm]
    | location loc => cases at_loc : d.tree.node? loc <;> simp [at_loc]

theorem node_of_locate {d : Disk} {p : Path} {loc : Location} {n : Node}
    (led : d.locate p = .ok (.location loc)) (node : d.tree.node? loc = some n) :
    d.node p = .ok n :=
  node_eq_ok_iff.mpr (Or.inr ⟨loc, led, node⟩)

theorem isDirectory_iff {d : Disk} {p : Path} :
    d.isDirectory p = true ↔ d.node p = .ok .directory := by
  rw [isDirectory]
  split
  · next dir => simp [dir]
  · next other => simpa using other

theorem isFile_iff {d : Disk} {p : Path} :
    d.isFile p = true ↔
      ∃ loc c, d.locate p = .ok (.location loc) ∧ d.tree.node? loc = some (.file c) := by
  have held : d.isFile p = true ↔ ∃ c, d.node p = .ok (.file c) := by
    rw [isFile]
    split
    · next c file => simp [file]
    · next other => simpa using other
  rw [held, exists_comm]
  simp [node_eq_ok_iff]

theorem contains_of_isFile {d : Disk} {p : Path} (h : d.isFile p = true) : d.contains p = true := by
  obtain ⟨loc, c, led, file⟩ := isFile_iff.mp h
  rw [contains, node_of_locate led file]

/-- **A path that can be followed** leads to its target. -/
theorem target_of_locate {d : Disk} {p : Path} {loc : Location}
    (h : d.locate p = .ok (.location loc)) : p.target d.cwd = loc := by
  have walked : ∀ {start : Location} {segments : List Text},
      (walk d.tree start segments).map Destination.location = .ok (.location loc) →
      steps start (componentsOf segments) = loc := by
    intro start segments led
    cases reached : walk d.tree start segments with
    | error e =>
      rw [reached] at led
      cases led
    | ok l =>
      rw [reached] at led
      cases led
      exact steps_of_walk reached
  rw [locate, follow] at h
  split at h
  · cases h
  · split at h
    · cases h
    · split at h
      · cases h
      · split at h
        · next absolute =>
          rw [target_of_isAbsolute absolute]
          exact walked h
        · next relative =>
          rw [target_of_not_isAbsolute (Bool.eq_false_iff.mpr relative)]
          rw [walkFromCwd] at h
          split at h
          · cases h
          · cases h
          · next left =>
            rw [steps_of_leave left]
            exact walked h

/-! ## Where no directory has been removed -/

/-- Where a path leads whose working directory has not been removed. -/
theorem follow_eq_walk {d : Disk} (entered : d.removed = 0) (p : Path) (segments : List Text) :
    d.follow p segments =
      if p.text = [] then .error .notFound
      else if p.text.contains '\x00' then .error .nulCharacter
      else if !isUsable p then .error .nameTooLong
      else (walk d.tree (p.start d.cwd) segments).map .location := by
  have kept : d.kept = d.cwd := by
    rw [Disk.kept, entered, Nat.sub_zero, List.take_length]
  rw [follow, walkFromCwd, entered, leave, kept, start]
  split
  · rfl
  · split
    · rfl
    · split
      · rfl
      · split <;> rfl

theorem follow_eq_ok_iff {d : Disk} (entered : d.removed = 0) {p : Path} {segments : List Text}
    {dest : Destination} :
    d.follow p segments = .ok dest ↔ p.text ≠ [] ∧ '\x00' ∉ p.text ∧ isUsable p = true ∧
      ∃ loc, walk d.tree (p.start d.cwd) segments = .ok loc ∧ dest = .location loc := by
  rw [follow_eq_walk entered]
  by_cases empty : p.text = []
  · simp [empty]
  · by_cases nul : '\x00' ∈ p.text
    · simp [empty, nul]
    · by_cases usable : isUsable p = true
      · cases walk d.tree (p.start d.cwd) segments with
        | error e => simp [empty, nul, usable, Except.map]
        | ok loc => simp [empty, nul, usable, Except.map, eq_comm]
      · simp [empty, nul, usable]

theorem node_at_target {d : Disk} (entered : d.removed = 0) {p : Path} {n : Node}
    (h : d.node p = .ok n) :
    d.locate p = .ok (.location (p.target d.cwd)) ∧ d.tree.node? (p.target d.cwd) = some n := by
  rcases node_eq_ok_iff.mp h with ⟨gone, -⟩ | ⟨loc, led, at_loc⟩
  · obtain ⟨-, -, -, loc, -, ⟨⟩⟩ := (follow_eq_ok_iff entered).mp gone
  · rw [target_of_locate led]
    exact ⟨led, at_loc⟩

/-- Two disks with the same nodes at and above the target of a path have the same node there, or
none for the same reason. -/
theorem node_eq_of_same_way {d d' : Disk} (entered : d.removed = 0)
    (removed : d'.removed = d.removed) (cwd : d'.cwd = d.cwd) {p : Path} (h : p.Descends)
    (same : ∀ l, l <+: p.target d.cwd → d'.tree.node? l = d.tree.node? l) :
    d'.locate p = d.locate p ∧ d'.node p = d.node p := by
  have located : d'.locate p = d.locate p := by
    rw [target_eq_steps] at same
    rw [locate, locate, follow_eq_walk entered, follow_eq_walk (removed.trans entered), cwd,
      walk_eq_of_same_way (descends_iff.mp h) same]
  refine ⟨located, ?_⟩
  rw [node, node, located]
  cases led : d.locate p with
  | error e => rfl
  | ok dest =>
    cases dest with
    | removedDirectory => rfl
    | location loc =>
      dsimp only
      rw [same loc (by rw [target_of_locate led])]

end Disk

end MessageDocs
