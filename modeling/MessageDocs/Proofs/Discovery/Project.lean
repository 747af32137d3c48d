import MessageDocs.Proofs.Discovery.Parts
import MessageDocs.Proofs.Disk.Spelling

/-! # Finding the root of a project

The root of a project is the nearest directory at or above a path with a manifest. Where there is
only one manifest it cannot be another directory, and it is found unless the path is written so
long that the manifest cannot be looked for.

* `Discovery.HoldsManifest`: a directory with a manifest, when no other file has its name.
* `Discovery.HoldsManifest.target_eq` and `loads_of_isFile`: wherever a manifest is found it is
  that one.
* `Discovery.HoldsManifest.projectRoot?_join`: the root that is found from a path below.
-/

set_option autoImplicit false

namespace MessageDocs

theorem Manifest.isName_fileName : IsName fileName := by decide

namespace Discovery

open MessageDocs.Path

theorem isAbsolute_fileName : (⟨Manifest.fileName⟩ : Path).isAbsolute = false := rfl

theorem target_manifestAt (p : Path) (cwd : Location) :
    (manifestAt p).target cwd = p.target cwd ++ [Manifest.fileName] := by
  rw [manifestAt, target_join p isAbsolute_fileName, ← ofNames_singleton, target_ofNames]
  simpa using Manifest.isName_fileName

theorem isAbsolute_manifestAt {p : Path} (absolute : p.isAbsolute = true) :
    (manifestAt p).isAbsolute = true :=
  isAbsolute_join_of_isAbsolute absolute _

theorem descends_manifestAt {p : Path} (h : p.Descends) : (manifestAt p).Descends :=
  h.join (by decide)

theorem endsInName_manifestAt (p : Path) : (manifestAt p).EndsInName :=
  endsInName_join isAbsolute_fileName (by unfold EndsInName; decide)

theorem same_manifestAt {p q : Path} (p_absolute : p.isAbsolute = true)
    (q_absolute : q.isAbsolute = true) (same : p.Same q) : (manifestAt p).Same (manifestAt q) := by
  rw [Same, manifestAt, manifestAt, components_join p_absolute isAbsolute_fileName,
    components_join q_absolute isAbsolute_fileName, same]

/-- A manifest that can be loaded is a text that can be read. -/
theorem exists_readText_of_loads {d : Disk} {p : Path} {m : Manifest}
    (loads : loadManifest d p = .ok m) :
    ∃ t, d.readText p = .ok t ∧ Manifest.ofText t = .ok m := by
  rw [loadManifest] at loads
  cases read : d.readText p with
  | error e =>
    rw [read] at loads
    cases loads
  | ok t =>
    rw [read] at loads
    exact ⟨t, rfl, loads⟩

/-- A directory that holds a manifest, when no other file of that name is in the tree. -/
structure HoldsManifest (d : Disk) (root : Path) (m : Manifest) : Prop where
  absolute : root.isAbsolute = true
  loads : loadManifest d (manifestAt root) = .ok m
  only : ∀ e ∈ d.tree.entries, e.2 ≠ .directory → e.1.getLast? = some Manifest.fileName →
    e.1 = root.target d.cwd ++ [Manifest.fileName]

theorem toOption_eq_some_iff {e : Except Failure Manifest} {m : Manifest} :
    e.toOption = some m ↔ e = .ok m := by
  cases e <;> simp [Except.toOption]

instance (d : Disk) (root : Path) (m : Manifest) : Decidable (HoldsManifest d root m) :=
  decidable_of_iff
    (root.isAbsolute = true ∧ (loadManifest d (manifestAt root)).toOption = some m ∧
      ∀ e ∈ d.tree.entries, e.2 ≠ .directory → e.1.getLast? = some Manifest.fileName →
        e.1 = root.target d.cwd ++ [Manifest.fileName])
    ⟨fun ⟨absolute, loads, only⟩ => ⟨absolute, toOption_eq_some_iff.mp loads, only⟩,
    fun h => ⟨h.absolute, toOption_eq_some_iff.mpr h.loads, h.only⟩⟩

namespace HoldsManifest

variable {d : Disk} {root : Path} {m : Manifest} (holds : HoldsManifest d root m)

include holds

/-- A manifest that is found anywhere is found where the root leads. -/
theorem target_eq {q : Path} (h : d.isFile (manifestAt q) = true) :
    q.target d.cwd = root.target d.cwd := by
  obtain ⟨loc, c, led, node⟩ := Disk.isFile_iff.mp h
  have target := Disk.target_of_locate led
  rw [target_manifestAt] at target
  rcases FileTree.mem_of_node? node with ⟨-, file⟩ | listed
  · cases file
  · have here := holds.only _ listed (by simp) (by rw [← target, List.getLast?_concat])
    rw [← target] at here
    exact List.append_cancel_right here

theorem exists_readText :
    ∃ t, d.readText (manifestAt root) = .ok t ∧ Manifest.ofText t = .ok m :=
  exists_readText_of_loads holds.loads

theorem isFile_root : d.isFile (manifestAt root) = true := by
  obtain ⟨t, read, -⟩ := holds.exists_readText
  rw [Disk.readText] at read
  rw [Disk.isFile]
  cases node : d.node (manifestAt root) with
  | error e =>
    rw [node] at read
    cases read
  | ok n =>
    rw [node] at read
    cases n with
    | directory => cases read
    | file c => rfl

/-- Wherever the manifest is found, it is the one of the project. -/
theorem loads_of_isFile {q : Path} (h : d.isFile (manifestAt q) = true) :
    loadManifest d (manifestAt q) = .ok m := by
  obtain ⟨t, read, meaning⟩ := holds.exists_readText
  obtain ⟨loc, c, led, -⟩ := Disk.isFile_iff.mp h
  obtain ⟨loc', c', led', -⟩ := Disk.isFile_iff.mp holds.isFile_root
  have same : loc = loc' := by
    rw [← Disk.target_of_locate led, ← Disk.target_of_locate led', target_manifestAt,
      target_manifestAt, holds.target_eq h]
  have at_loc := (Disk.readText_eq_ok_iff led').mp read
  rw [loadManifest, (Disk.readText_eq_ok_iff led).mpr (same ▸ at_loc)]
  exact meaning

theorem isFile_of_same {q : Path} (absolute : q.isAbsolute = true) (same : q.Same root)
    (usable : Disk.isUsable (manifestAt q) = true) : d.isFile (manifestAt q) = true := by
  obtain ⟨loc, c, led, node⟩ := Disk.isFile_iff.mp holds.isFile_root
  have congr := Disk.locate_congr (d := d) (isAbsolute_manifestAt holds.absolute)
    (isAbsolute_manifestAt absolute) (same_manifestAt holds.absolute absolute same.symm)
    (endsInName_manifestAt root) (endsInName_manifestAt q) (Disk.isUsable_of_locate led) usable
    (Disk.nul_not_mem_of_locate led)
  exact Disk.isFile_iff.mpr ⟨loc, c, congr.symm.trans led, node⟩

/-- The manifest is found by any path to the root that never leads up and is short enough. -/
theorem isFile_of_target {q : Path} (absolute : q.isAbsolute = true) (descends : q.Descends)
    (leads : q.target d.cwd = root.target d.cwd)
    (usable : Disk.isUsable (manifestAt q) = true) : d.isFile (manifestAt q) = true := by
  obtain ⟨loc, c, led, node⟩ := Disk.isFile_iff.mp holds.isFile_root
  have target : (manifestAt q).target d.cwd = loc := by
    rw [target_manifestAt, leads, ← target_manifestAt, Disk.target_of_locate led]
  have names := FileTree.names_of_node? node
  have manifest_absolute := isAbsolute_manifestAt absolute
  have components :=
    components_of_target manifest_absolute (descends_manifestAt descends) d.cwd
  rw [target] at components
  have short : ∀ n ∈ loc, n.byteLength ≤ Disk.longestName :=
    Disk.short_of_walk (by simp) (Disk.walk_of_locate (isAbsolute_manifestAt holds.absolute) led)
  have led_q : d.locate (manifestAt q) = .ok (.location loc) := by
    rw [Disk.locate_of_components d manifest_absolute (endsInName_manifestAt q) usable names
      components, @Disk.walk_names_of_node d.tree [] loc _ node names short]
    rfl
  exact Disk.isFile_iff.mpr ⟨loc, c, led_q, node⟩

/-- What is found from a path that leads down from the root by names: not a directory on the way,
which leads elsewhere, but the ancestor with the components of the root, if its manifest can be
looked for. -/
theorem exists_projectRoot {p : Path} (absolute : p.isAbsolute = true) {pre : List Component}
    (leads : steps d.cwd pre = root.target d.cwd) {names : List Text}
    (below : p.components = pre ++ names.map .name) :
    ∃ q ∈ p.ancestors, q.isAbsolute = true ∧ q.components = pre ∧ p.IsCutFrom q ∧
      (d.isFile (manifestAt q) = true → projectRoot? d p = some q) := by
  have enough : names.length ≤ p.components.length := by
    rw [below, List.length_append, List.length_map]
    exact Nat.le_add_left _ _
  obtain ⟨before, q, after, ancestors_eq, deeper, q_absolute, q_components, cut⟩ :=
    exists_ancestor absolute below enough
  -- A manifest on the way would be the only one there is, which lies further up.
  have skipped : before.find? (fun dir => d.isFile (manifestAt dir)) = none := by
    rw [List.find?_eq_none]
    intro b hb isFile
    obtain ⟨part, some_part, components⟩ := deeper b hb
    have target : steps d.cwd b.components = root.target d.cwd := holds.target_eq isFile
    rw [components, steps_append, steps_names, leads] at target
    exact some_part (List.append_right_eq_self.mp target)
  refine ⟨q, ?_, q_absolute, q_components, cut, fun isFile => ?_⟩
  · rw [ancestors, ancestors_eq]
    simp
  · rw [projectRoot?, ancestors, ancestors_eq, List.find?_append, skipped, Option.none_or]
    exact List.find?_cons_of_pos (by simpa using isFile)

/-- The root that is found from a path that lies in it and never leads up. -/
theorem projectRoot?_of_inside {p : Path} (absolute : p.isAbsolute = true)
    (descends : p.Descends) (inside : root.target d.cwd <+: p.target d.cwd)
    (reach : ∀ q ∈ p.ancestors, q.target d.cwd = root.target d.cwd →
      Disk.isUsable (manifestAt q) = true) :
    ∃ q, projectRoot? d p = some q ∧ d.isFile (manifestAt q) = true := by
  obtain ⟨rest, whole⟩ := inside
  have leads : steps d.cwd (.root :: (root.target d.cwd).map .name) = root.target d.cwd := by
    change steps [] ((root.target d.cwd).map .name) = _
    rw [steps_names, List.nil_append]
  have below : p.components = (.root :: (root.target d.cwd).map .name) ++ rest.map .name := by
    rw [components_of_target absolute descends d.cwd, ← whole, List.map_append, List.cons_append]
  obtain ⟨q, above, q_absolute, q_components, -, found⟩ :=
    holds.exists_projectRoot absolute leads below
  have q_target : q.target d.cwd = root.target d.cwd := by
    rw [Path.target, q_components, leads]
  have q_descends : q.Descends := by
    rw [Descends, q_components]
    simp
  have isFile := holds.isFile_of_target q_absolute q_descends q_target (reach q above q_target)
  exact ⟨q, found isFile, isFile⟩

/-- The root that is found from one of its directories, given in the form in which a source is
joined to it. -/
theorem projectRoot?_join {s : Text} (relative : (⟨s⟩ : Path).isAbsolute = false)
    (descends : (⟨s⟩ : Path).Descends)
    (short : (root.join ⟨s⟩).Same root → Disk.isUsable (manifestAt (root.join ⟨s⟩)) = true) :
    ∃ q, projectRoot? d (root.join ⟨s⟩) = some q ∧ q.isAbsolute = true ∧ q.Same root ∧
      d.isFile (manifestAt q) = true := by
  have absolute := isAbsolute_join_of_isAbsolute holds.absolute ⟨s⟩
  obtain ⟨names, eq⟩ := componentsOf_eq_names (descends_iff.mp descends)
  have below : (root.join ⟨s⟩).components = root.components ++ names.map .name := by
    rw [components_join holds.absolute relative, eq]
  obtain ⟨q, -, q_absolute, same, cut, found⟩ := holds.exists_projectRoot absolute rfl below
  have usable : Disk.isUsable (manifestAt q) = true := by
    rcases cut with rfl | ⟨beginning, behind⟩
    · exact short same
    · obtain ⟨loc, c, led, -⟩ := Disk.isFile_iff.mp holds.isFile_root
      have root_usable := Disk.isUsable_of_locate led
      have root_text : root.slashed <+: (root.join ⟨s⟩).text := by
        rw [text_join root relative]
        exact List.prefix_append _ _
      have shorter :=
        byteLength_slashed_le holds.absolute root_text q_absolute same beginning behind
      rw [Disk.isUsable, decide_eq_true_eq, manifestAt, text_join _ isAbsolute_fileName,
        Text.byteLength_append] at root_usable ⊢
      exact (Nat.add_le_add_right shorter _).trans root_usable
  have isFile := holds.isFile_of_same q_absolute same usable
  exact ⟨q, found isFile, q_absolute, same, isFile⟩

end HoldsManifest

/-- The root is not found from a spelling of it that is too long. -/
theorem not_same_of_projectRoot? {d : Disk} {root p q : Path} (absolute : p.isAbsolute = true)
    (same : p.Same root) (long : Disk.isUsable (manifestAt p) = false)
    (found : projectRoot? d p = some q) : ¬q.Same root := by
  intro q_same
  obtain ⟨above, isFile⟩ := projectRoot?_spec found
  have apart : q ≠ p := by
    rintro rfl
    obtain ⟨loc, c, led, -⟩ := Disk.isFile_iff.mp isFile
    rw [Disk.isUsable_of_locate led] at long
    cases long
  have fewer := length_of_mem_ancestorsUpTo absolute above apart
  rw [q_same, same] at fewer
  exact Nat.lt_irrefl _ fewer

end Discovery

end MessageDocs
