import Mathlib.Data.List.Find
import MessageDocs.Proofs.Discovery.Opening
import MessageDocs.Proofs.Discovery.Project

/-! # The nearest manifest

A manifest is looked for in a path and in its ancestors as they are written. Without its last name a
path leads one directory up, and without a `..` at its end it leads one directory down again. So
every directory at and above the path is asked, from the innermost one on, and between them those
that the path has left again.

* `Path.Resolves`: paths on which each `..` stands behind a directory.
* `Discovery.isFile_manifestAt_iff`: on such a path a manifest is found where there is one.
* `Discovery.FollowsNearest`: what the nearest manifest at or above a location makes of a run.
* `Discovery.nearest_honoured`: when a run follows it.
-/

set_option autoImplicit false

namespace MessageDocs

open MessageDocs.Path

namespace Path

/-! ## Where ancestors lead -/

theorem up_or_name_of_mem_componentsOf {segments : List Text} {c : Component}
    (h : c ∈ componentsOf segments) : c = .up ∨ ∃ n, c = .name n := by
  obtain ⟨s, -, stands⟩ := List.mem_filterMap.mp h
  exact up_or_name_of_ofSegment? stands

theorem exists_component_of_parent {p q : Path} (absolute : p.isAbsolute = true)
    (up : p.parent? = some q) :
    ∃ c, p.components = q.components ++ [c] ∧ (c = .up ∨ ∃ n, c = .name n) := by
  obtain ⟨q_absolute, q_components⟩ := parent?_spec absolute up
  have p_components := components_of_isAbsolute absolute
  rcases List.eq_nil_or_concat' (componentsOf (segmentsOf p.text)) with none | ⟨before, c, eq⟩
  · rw [p_components, none, components_of_isAbsolute q_absolute] at q_components
    cases q_components
  · refine ⟨c, ?_, up_or_name_of_mem_componentsOf (eq ▸ List.mem_concat_self)⟩
    rw [q_components, p_components, eq, ← List.cons_append, List.dropLast_concat]

/-- **One step back along a path** leads one directory up or down. -/
theorem target_of_parent {p q : Path} (absolute : p.isAbsolute = true) (up : p.parent? = some q)
    (cwd : Location) :
    (∃ n, p.target cwd = q.target cwd ++ [n]) ∨ p.target cwd = (q.target cwd).dropLast := by
  obtain ⟨c, components, kind⟩ := exists_component_of_parent absolute up
  rw [target, components, steps_append]
  rcases kind with rfl | ⟨n, rfl⟩
  · exact Or.inr rfl
  · exact Or.inl ⟨n, rfl⟩

theorem target_of_no_parent {p : Path} (absolute : p.isAbsolute = true) (top : p.parent? = none)
    (cwd : Location) : p.target cwd = [] := by
  have insignificant : ∀ s ∈ p.parts.segments, isSignificant s = false := by
    rw [parent?] at top
    split at top
    · cases top
    · next none => simpa using none
  rw [target_of_isAbsolute absolute, ← componentsOf_parts, componentsOf_eq_nil insignificant]
  rfl

/-- No directory above the path is lost on the way back, the one it leads to apart. -/
theorem isPrefix_target_parent {p q : Path} (absolute : p.isAbsolute = true)
    (up : p.parent? = some q) {cwd dir : Location} (above : dir <+: p.target cwd)
    (apart : dir ≠ p.target cwd) : dir <+: q.target cwd := by
  rcases target_of_parent absolute up cwd with ⟨n, down⟩ | back
  · rw [down] at above apart
    exact (List.prefix_concat_iff.mp above).resolve_left apart
  · rw [back] at above
    exact above.trans (List.dropLast_prefix _)

/-- **What is sought at or above a path** is found on the way back, where it is or deeper. -/
theorem exists_find?_ancestorsUpTo (sought : Location → Bool) {cwd dir : Location}
    (here : sought dir = true) {k : Nat} {p : Path} (absolute : p.isAbsolute = true)
    (enough : p.components.length ≤ k) (above : dir <+: p.target cwd) :
    ∃ q, (ancestorsUpTo k p).find? (fun q => sought (q.target cwd)) = some q ∧
      dir <+: q.target cwd := by
  induction k generalizing p with
  | zero =>
    rw [components_of_isAbsolute absolute] at enough
    cases enough
  | succ k ih =>
    by_cases at_end : sought (p.target cwd) = true
    · refine ⟨p, ?_, above⟩
      rw [ancestorsUpTo]
      split <;> exact List.find?_cons_of_pos at_end
    · -- Then it is not the end of the path, so it is at or above the parent too.
      have apart : dir ≠ p.target cwd := by
        rintro rfl
        exact at_end here
      rw [ancestorsUpTo]
      split
      · next top =>
        rw [target_of_no_parent absolute top] at above apart
        exact absurd (List.prefix_nil.mp above) apart
      · next q up =>
        obtain ⟨q_absolute, q_components⟩ := parent?_spec absolute up
        have shorter : q.components.length ≤ k := by
          rw [q_components, List.length_dropLast]
          omega
        obtain ⟨found, further, inside⟩ :=
          ih q_absolute shorter (isPrefix_target_parent absolute up above apart)
        refine ⟨found, ?_, inside⟩
        rw [List.find?_cons_of_neg, further]
        exact at_end

/-! ## Paths that can be resolved -/

/-- Whether each `..` among components stands behind a directory of a tree. -/
def ResolvesFrom (t : FileTree) : Location → List Component → Prop
  | _, [] => True
  | loc, c :: rest =>
    (c = .up → t.node? loc = some .directory) ∧ ResolvesFrom t (c.step loc) rest

instance decidableResolvesFrom (t : FileTree) :
    ∀ (loc : Location) (components : List Component), Decidable (ResolvesFrom t loc components)
  | _, [] => inferInstanceAs (Decidable True)
  | loc, c :: rest =>
    have := decidableResolvesFrom t (c.step loc) rest
    inferInstanceAs (Decidable (_ ∧ _))

/-- Whether each `..` of a path stands behind a directory. -/
def Resolves (d : Disk) (p : Path) : Prop :=
  ResolvesFrom d.tree d.cwd p.components

instance (d : Disk) (p : Path) : Decidable (p.Resolves d) :=
  inferInstanceAs (Decidable (ResolvesFrom _ _ _))

theorem resolvesFrom_append {t : FileTree} {loc : Location} {a b : List Component} :
    ResolvesFrom t loc (a ++ b) ↔ ResolvesFrom t loc a ∧ ResolvesFrom t (steps loc a) b := by
  induction a generalizing loc with
  | nil => exact (iff_of_eq (true_and _)).symm
  | cons c a ih =>
    change _ ∧ ResolvesFrom t (c.step loc) (a ++ b) ↔ _
    rw [ih, ← and_assoc]
    rfl

theorem resolvesFrom_of_not_mem {t : FileTree} {loc : Location} {components : List Component}
    (h : .up ∉ components) : ResolvesFrom t loc components := by
  induction components generalizing loc with
  | nil => exact trivial
  | cons c rest ih =>
    rw [List.mem_cons, not_or] at h
    exact ⟨fun up => absurd up.symm h.1, ih h.2⟩

theorem Resolves.of_mem_ancestors {d : Disk} {p q : Path} (h : p.Resolves d)
    (absolute : p.isAbsolute = true) (above : q ∈ p.ancestors) : q.Resolves d := by
  obtain ⟨rest, components⟩ := (ancestorsUpTo_spec absolute above).2
  rw [Resolves, ← components, resolvesFrom_append] at h
  exact h.1

end Path

namespace Disk

/-- What components lead to that resolve is reached through directories, by names of the tree. -/
theorem exists_of_resolvesFrom {t : FileTree} {loc : Location} {components : List Component}
    (kinds : ∀ c ∈ components, c = .up ∨ ∃ n, c = .name n) (h : ResolvesFrom t loc components)
    {node : Node} (there : t.node? (steps loc components) = some node) :
    (∃ start, t.node? loc = some start) ∧
      (components ≠ [] → t.node? loc = some .directory) ∧
      ∀ n, .name n ∈ components → ∃ parent node, t.node? (parent ++ [n]) = some node := by
  induction components generalizing loc with
  | nil => exact ⟨⟨node, there⟩, fun none => absurd rfl none, fun n hn => nomatch hn⟩
  | cons c rest ih =>
    obtain ⟨kind, kinds⟩ := List.forall_mem_cons.mp kinds
    obtain ⟨⟨next, reached⟩, -, names⟩ := ih kinds h.2 there
    have dir : t.node? loc = some .directory := by
      rcases kind with rfl | ⟨n, rfl⟩
      · exact h.1 rfl
      · exact FileTree.directory_of_node? (List.cons_ne_nil n []) reached
    refine ⟨⟨_, dir⟩, fun _ => dir, fun n hn => ?_⟩
    rcases List.mem_cons.mp hn with rfl | later
    · exact ⟨loc, next, reached⟩
    · exact names n later

/-- **Components that resolve** are followed to what they lead to. -/
theorem walkComponents_of_resolvesFrom {t : FileTree} {loc : Location}
    {components : List Component} (kinds : ∀ c ∈ components, c = .up ∨ ∃ n, c = .name n)
    (short : ∀ n, .name n ∈ components → n.byteLength ≤ longestName)
    (h : ResolvesFrom t loc components) {node : Node}
    (there : t.node? (steps loc components) = some node) :
    walkComponents t loc components = .ok (steps loc components) := by
  induction components generalizing loc with
  | nil => rfl
  | cons c rest ih =>
    have dir := (exists_of_resolvesFrom kinds h there).2.1 (List.cons_ne_nil c rest)
    have entered : enter loc c = .ok (c.step loc) := by
      rcases kinds c List.mem_cons_self with rfl | ⟨n, rfl⟩
      · rfl
      · rw [enter, if_neg (Nat.not_lt.mpr (short n List.mem_cons_self))]
        rfl
    rw [walkComponents, dir, entered]
    exact ih (fun c hc => kinds c (List.mem_cons_of_mem _ hc))
      (fun n hn => short n (List.mem_cons_of_mem _ hn)) h.2 there

/-- **A path that resolves** and ends with a name leads to what is at its target. -/
theorem IsSound.locate_of_resolves {d : Disk} (sound : d.IsSound) {p : Path}
    (absolute : p.isAbsolute = true) (ends : p.EndsInName) (usable : isUsable p = true)
    (h : p.Resolves d) {node : Node} (there : d.tree.node? (p.target d.cwd) = some node) :
    d.locate p = .ok (.location (p.target d.cwd)) := by
  have kinds : ∀ c ∈ componentsOf (segmentsOf p.text), c = .up ∨ ∃ n, c = .name n :=
    fun _ => up_or_name_of_mem_componentsOf
  rw [Resolves, components_of_isAbsolute absolute] at h
  have onward : ResolvesFrom d.tree [] (componentsOf (segmentsOf p.text)) := h.2
  rw [target_of_isAbsolute absolute] at there ⊢
  have named := (exists_of_resolvesFrom kinds onward there).2.2
  have plain : '\x00' ∉ p.text := by
    rw [nul_mem_iff]
    rintro ⟨n, hn, nul⟩
    obtain ⟨parent, node, at_n⟩ := named n hn
    have noNul := (FileTree.names_of_node? at_n n List.mem_concat_self).2.2
    rw [List.contains_eq_mem, decide_eq_false_iff_not] at noNul
    exact noNul nul
  have short : ∀ n, .name n ∈ componentsOf (segmentsOf p.text) → n.byteLength ≤ longestName := by
    intro n hn
    obtain ⟨parent, node, at_n⟩ := named n hn
    exact sound.short_of_node? at_n n List.mem_concat_self
  rw [locate_of_isAbsolute d absolute usable plain, walk_eq_walkComponents d.tree [] ends,
    walkComponents_of_resolvesFrom kinds short onward there]
  rfl

end Disk

namespace Discovery

/-! ## Directories with a manifest -/

/-- Whether a directory of a tree holds a manifest. -/
def HasManifestAt (t : FileTree) (dir : Location) : Prop :=
  ∃ c, t.node? (dir ++ [Manifest.fileName]) = some (.file c)

instance (t : FileTree) (dir : Location) : Decidable (HasManifestAt t dir) :=
  match node : t.node? (dir ++ [Manifest.fileName]) with
  | some (.file c) => isTrue ⟨c, node⟩
  | some .directory => isFalse fun ⟨_, file⟩ => nomatch node.symm.trans file
  | none => isFalse fun ⟨_, file⟩ => nomatch node.symm.trans file

/-- The deepest directory at or above a location that holds a manifest. -/
structure IsNearest (t : FileTree) (loc dir : Location) : Prop where
  above : dir <+: loc
  holds : HasManifestAt t dir
  nearest : ∀ other, other <+: loc → HasManifestAt t other → other <+: dir

theorem resolves_manifestAt {d : Disk} {p : Path} (absolute : p.isAbsolute = true)
    (h : p.Resolves d) : (manifestAt p).Resolves d := by
  rw [Resolves, manifestAt, components_join absolute isAbsolute_fileName, resolvesFrom_append]
  exact ⟨h, resolvesFrom_of_not_mem (by decide)⟩

/-- **A manifest is found** by a path that resolves where the path leads to a directory with one, as
far as the path is short enough. -/
theorem isFile_manifestAt_iff {d : Disk} (sound : d.IsSound) {p : Path}
    (absolute : p.isAbsolute = true) (h : p.Resolves d)
    (room : HasManifestAt d.tree (p.target d.cwd) → Disk.isUsable (manifestAt p) = true) :
    d.isFile (manifestAt p) = true ↔ HasManifestAt d.tree (p.target d.cwd) := by
  rw [HasManifestAt, ← target_manifestAt]
  constructor
  · intro file
    obtain ⟨loc, c, led, at_loc⟩ := Disk.isFile_iff.mp file
    exact ⟨c, by rw [Disk.target_of_locate led, at_loc]⟩
  · rintro ⟨c, there⟩
    have usable := room ⟨c, by rw [← target_manifestAt, there]⟩
    have led := sound.locate_of_resolves (isAbsolute_manifestAt absolute)
      (endsInName_manifestAt p) usable (resolves_manifestAt absolute h) there
    exact Disk.isFile_iff.mpr ⟨_, c, led, there⟩

/-- The first of a path and its ancestors that leads to a directory with a manifest. -/
def firstWithManifest? (d : Disk) (p : Path) : Option Path :=
  p.ancestors.find? fun q => decide (HasManifestAt d.tree (q.target d.cwd))

/-- Where a directory at or above the path holds a manifest, the first one that is found is no
further up. -/
theorem exists_firstWithManifest? {d : Disk} {p : Path} (absolute : p.isAbsolute = true)
    {dir : Location} (holds : HasManifestAt d.tree dir) (above : dir <+: p.target d.cwd) :
    ∃ q, firstWithManifest? d p = some q ∧ dir <+: q.target d.cwd :=
  exists_find?_ancestorsUpTo (fun dir => decide (HasManifestAt d.tree dir))
    (decide_eq_true holds) absolute le_rfl above

/-- The directory that is found first is the nearest one, if it is at or above the path. -/
theorem isNearest_of_firstWithManifest? {d : Disk} {p q : Path} (absolute : p.isAbsolute = true)
    (first : firstWithManifest? d p = some q) (above : q.target d.cwd <+: p.target d.cwd) :
    IsNearest d.tree (p.target d.cwd) (q.target d.cwd) where
  above := above
  holds := by
    rw [firstWithManifest?] at first
    simpa using List.find?_some first
  nearest := by
    intro other other_above holds
    obtain ⟨q', first', inside⟩ := exists_firstWithManifest? absolute holds other_above
    obtain rfl : q = q' := Option.some.inj (first.symm.trans first')
    exact inside

theorem not_hasManifestAt_of_firstWithManifest? {d : Disk} {p : Path}
    (absolute : p.isAbsolute = true) (none : firstWithManifest? d p = none) (dir : Location)
    (above : dir <+: p.target d.cwd) : ¬HasManifestAt d.tree dir := by
  intro holds
  obtain ⟨q, first, -⟩ := exists_firstWithManifest? absolute holds above
  exact nomatch none.symm.trans first

/-! ## What a run makes of them -/

/-- What the nearest manifest at or above a location makes of a run: it is used, or the run fails
because it cannot be read. Where there is none, the run goes on without one. -/
inductive FollowsNearest (d : Disk) (loc : Location) : Except Failure Discovery → Prop
  | used {dir : Location} {t : Text} {found : Discovery} (nearest : IsNearest d.tree loc dir)
      (root : d.locate found.root = .ok (.location dir)) (manifest : found.hasManifest = true)
      (text : d.tree.node? (dir ++ [Manifest.fileName]) = some (.file (.text t)))
      (meaning : Manifest.ofText t = .ok found.manifest) : FollowsNearest d loc (.ok found)
  | refused {dir : Location} {root : Path} {e : Failure} (nearest : IsNearest d.tree loc dir)
      (leads : d.locate root = .ok (.location dir))
      (failed : loadManifest d (manifestAt root) = .error e) : FollowsNearest d loc (.error e)
  | without {found : Discovery} (none : ∀ dir, dir <+: loc → ¬HasManifestAt d.tree dir)
      (manifest : found.hasManifest = false) (default : found.manifest = {}) :
      FollowsNearest d loc (.ok found)

/-- A manifest that is found is in the directory that its root leads to. -/
theorem locate_root_of_isFile {d : Disk} {root : Path} (absolute : root.isAbsolute = true)
    (file : d.isFile (manifestAt root) = true) :
    d.locate root = .ok (.location (root.target d.cwd)) ∧
      d.locate (manifestAt root) =
        .ok (.location (root.target d.cwd ++ [Manifest.fileName])) := by
  obtain ⟨loc, c, led, -⟩ := Disk.isFile_iff.mp file
  have joined := led
  rw [manifestAt, ← ofNames_singleton] at joined
  obtain ⟨base, root_led, -, eq⟩ :=
    Disk.exists_of_locate_join absolute (by simpa using Manifest.isName_fileName) joined
  rw [Disk.target_of_locate root_led, led, eq]
  exact ⟨root_led, rfl⟩

section Runs

variable {d : Disk} {cwd p : Path} {rest : List Path}
  (agrees : projectRoot? d p = firstWithManifest? d p)

include agrees

/-- **A run follows the nearest manifest** when the first directory with one is at or above the
path. -/
theorem followsNearest_of_above (absolute : p.isAbsolute = true)
    (above : ∀ q ∈ firstWithManifest? d p, q.target d.cwd <+: p.target d.cwd) :
    FollowsNearest d (p.target d.cwd) (ofAbsolute d cwd (p :: rest)) := by
  rw [ofAbsolute, List.head?_cons, Option.bind_some]
  cases first : firstWithManifest? d p with
  | none =>
    rw [agrees, first]
    exact .without (not_hasManifestAt_of_firstWithManifest? absolute first) rfl rfl
  | some q =>
    have asked := agrees.trans first
    have nearest := isNearest_of_firstWithManifest? absolute first (above q first)
    obtain ⟨on_way, file⟩ := projectRoot?_spec asked
    obtain ⟨leads, manifest_leads⟩ :=
      locate_root_of_isFile (ancestorsUpTo_spec absolute on_way).1 file
    rw [asked]
    dsimp only
    cases loads : loadManifest d (manifestAt q) with
    | error e => exact .refused nearest leads loads
    | ok m =>
      obtain ⟨t, read, meaning⟩ := exists_readText_of_loads loads
      exact .used nearest leads rfl ((Disk.readText_eq_ok_iff manifest_leads).mp read) meaning

/-- A run that follows the nearest manifest has found it first. -/
theorem above_of_followsNearest {found : Discovery}
    (ran : ofAbsolute d cwd (p :: rest) = .ok found)
    (follows : FollowsNearest d (p.target d.cwd) (.ok found)) :
    ∀ q ∈ firstWithManifest? d p, q.target d.cwd <+: p.target d.cwd := by
  intro q first
  rw [ofAbsolute, List.head?_cons, Option.bind_some, agrees, Option.mem_def.mp first] at ran
  dsimp only at ran
  split at ran
  · cases ran
  · cases ran
    cases follows with
    | used nearest root =>
      rw [Disk.target_of_locate root]
      exact nearest.above
    | without none manifest => cases manifest

end Runs

/-! ## Given paths -/

theorem projectRoot?_eq_firstWithManifest? {d : Disk} (sound : d.IsSound) {p : Path}
    (absolute : p.isAbsolute = true) (resolves : p.Resolves d)
    (room : ∀ q ∈ p.ancestors, HasManifestAt d.tree (q.target d.cwd) →
      Disk.isUsable (manifestAt q) = true) : projectRoot? d p = firstWithManifest? d p := by
  apply List.find?_congr
  intro q hq
  rw [Bool.eq_iff_iff, decide_eq_true_eq]
  exact isFile_manifestAt_iff sound (ancestorsUpTo_spec absolute hq).1
    (resolves.of_mem_ancestors absolute hq) (room q hq)

/-- **When the nearest manifest is honoured.** At a first path that never leads up, always. At one
on which each `..` stands behind a directory, when the first directory with a manifest on the way
back along the path is at or above it, and of the runs that return a discovery in no other case. In
both cases the path has to be short enough for the manifests on this way to be looked for. -/
theorem nearest_honoured {d : Disk} (sound : d.IsSound) (entered : d.removed = 0) (p : Path)
    (rest : List Path)
    (room : ∀ q ∈ (given d p).ancestors, HasManifestAt d.tree (q.target d.cwd) →
      Disk.isUsable (manifestAt q) = true) :
    (p.Descends → FollowsNearest d (givenLocation d p) (ofPaths d (p :: rest))) ∧
    ((given d p).Resolves d →
      ((∀ q ∈ firstWithManifest? d (given d p), q.target d.cwd <+: givenLocation d p) →
        FollowsNearest d (givenLocation d p) (ofPaths d (p :: rest))) ∧
      ∀ found, ofPaths d (p :: rest) = .ok found →
        FollowsNearest d (givenLocation d p) (.ok found) →
        ∀ q ∈ firstWithManifest? d (given d p), q.target d.cwd <+: givenLocation d p) := by
  have absolute := isAbsolute_given d p
  rw [ofPaths_eq_ofAbsolute entered, List.map_cons]
  constructor
  · intro descends
    have given_descends := descends_given (sound.entered entered) descends
    have agrees := projectRoot?_eq_firstWithManifest? sound absolute
      (resolvesFrom_of_not_mem given_descends) room
    refine followsNearest_of_above agrees absolute fun q first => ?_
    -- Along such a path it only goes up.
    have on_way := List.mem_of_find?_eq_some first
    obtain ⟨q_absolute, beginning⟩ := ancestorsUpTo_spec absolute on_way
    have q_descends := given_descends.of_mem_ancestors absolute on_way
    exact (isPrefix_iff_target q_absolute q_descends absolute given_descends d.cwd).mp beginning
  · intro resolves
    have agrees := projectRoot?_eq_firstWithManifest? sound absolute resolves room
    exact ⟨followsNearest_of_above agrees absolute,
      fun found ran => above_of_followsNearest agrees ran⟩

/-! ## A directory beside a project -/

/-- A disk with a project, which is the working directory, and a directory beside it. -/
def besideProject : Disk where
  tree := (do
    let t ← FileTree.empty.putDirectory ["a"]
    let t ← t.putFile ["a", Manifest.fileName] (.text "extra_units: [knots]")
    let t ← t.putFile ["a", "A.msg"] (.text "u8 x")
    let t ← t.putDirectory ["b"]
    t.putFile ["b", "B.msg"] (.text "u8 y")).getD FileTree.empty
  cwd := ["a"]

/-- A path that leads out of the project and back. -/
theorem project_honoured_from_detour :
    besideProject.IsSound ∧ (given besideProject ⟨"../b/.././a//A.msg"⟩).Resolves besideProject ∧
      ∃ found, ofPaths besideProject [⟨"../b/.././a//A.msg"⟩] = .ok found ∧
        found.hasManifest = true ∧ FollowsNearest besideProject ["a", "A.msg"] (.ok found) := by
  have sound : besideProject.IsSound := by decide +kernel
  have resolves : (given besideProject ⟨"../b/.././a//A.msg"⟩).Resolves besideProject := by
    decide +kernel
  have room : ∀ q ∈ (given besideProject ⟨"../b/.././a//A.msg"⟩).ancestors,
      HasManifestAt besideProject.tree (q.target besideProject.cwd) →
        Disk.isUsable (manifestAt q) = true := by
    decide +kernel
  have above : ∀ q ∈ firstWithManifest? besideProject (given besideProject ⟨"../b/.././a//A.msg"⟩),
      q.target besideProject.cwd <+: givenLocation besideProject ⟨"../b/.././a//A.msg"⟩ := by
    decide +kernel
  obtain ⟨found, ran, manifest⟩ : ∃ found,
      ofPaths besideProject [⟨"../b/.././a//A.msg"⟩] = .ok found ∧ found.hasManifest = true :=
    exists_ok_of_any (by decide +kernel)
  have follows := ((nearest_honoured sound rfl ⟨"../b/.././a//A.msg"⟩ [] room).2 resolves).1 above
  rw [ran] at follows
  exact ⟨sound, resolves, found, ran, manifest, follows⟩

/-- Nothing at or above the directory beside the project holds a manifest, and yet that of the
project is used, which the path to the directory has left again. -/
theorem left_project_honoured :
    (∀ dir, dir <+: givenLocation besideProject ⟨"../b"⟩ →
      ¬HasManifestAt besideProject.tree dir) ∧
    ∃ found, ofPaths besideProject [⟨"../b"⟩] = .ok found ∧ found.hasManifest = true ∧
      found.root.target besideProject.cwd = ["a"] ∧
      ¬FollowsNearest besideProject (givenLocation besideProject ⟨"../b"⟩) (.ok found) := by
  have none : ∀ dir, dir <+: givenLocation besideProject ⟨"../b"⟩ →
      ¬HasManifestAt besideProject.tree dir := by
    intro dir above
    rw [← List.mem_inits] at above
    revert dir
    decide +kernel
  obtain ⟨found, ran, manifest, root⟩ : ∃ found, ofPaths besideProject [⟨"../b"⟩] = .ok found ∧
      found.hasManifest = true ∧ found.root.target besideProject.cwd = ["a"] :=
    exists_ok_of_any (by decide +kernel)
  refine ⟨none, found, ran, manifest, root, ?_⟩
  intro follows
  cases follows with
  | used nearest => exact none _ nearest.above nearest.holds
  | without _ no_manifest => exact nomatch manifest.symm.trans no_manifest

end Discovery

end MessageDocs
