import MessageDocs.Proofs.Batch.Spelling
import MessageDocs.Proofs.Discovery.Overlap
import MessageDocs.Proofs.Discovery.Project

/-! # Naming every source

A project is found by its root, or by paths. When the paths are those of all its sources, each of
them is its own anchor, so that nothing remains of it, and the files under it are recorded and
excluded as in the whole project.

* `Discovery.AgreesWith`: the same project and the same files, but for the spelling of directories.
* `Discovery.filesAt_source`: the files at the path of a source are those of a scan of it.
* `Discovery.sources_given`: when the paths of all sources find the same as the root.
-/

set_option autoImplicit false

namespace MessageDocs

open MessageDocs.Path

/-! ## Absolute paths that are spelled differently -/

theorem Path.isAbsolute_of_same {p q : Path} (absolute : q.isAbsolute = true) (same : p.Same q) :
    p.isAbsolute = true := by
  by_contra relative
  rw [Bool.not_eq_true] at relative
  rw [Same, components_of_isAbsolute absolute, components_eq] at same
  rcases lead_of_not_isAbsolute relative with none | here
  · rw [none, List.nil_append] at same
    have listed : .root ∈ componentsOf (segmentsOf p.text) := by simp [same]
    obtain ⟨s, -, stands⟩ := List.mem_filterMap.mp listed
    rcases up_or_name_of_ofSegment? stands with root | ⟨n, root⟩ <;> cases root
  · rw [here] at same
    cases (List.cons.inj same).1

theorem Path.same_join {p q r : Path} (p_absolute : p.isAbsolute = true)
    (q_absolute : q.isAbsolute = true) (same : p.Same q) : (p.join r).Same (q.join r) := by
  cases replaced : r.isAbsolute with
  | true => simp [Same, Path.join, replaced]
  | false =>
    rw [Same, components_join p_absolute replaced, components_join q_absolute replaced, same]

theorem Path.nil_join (p : Path) : (⟨[]⟩ : Path).join p = p := by
  rw [Path.join]
  split <;> rfl

/-- A record under a directory that may be spelled in another way. -/
structure SchemaFile.Same (f g : SchemaFile) : Prop where
  root : f.root.Same g.root
  relative : f.relative = g.relative

namespace Discovery

/-! ## The files of a source -/

section Source

variable {d : Disk} {m : Manifest} {root q : Path} {s : Text}
  (root_absolute : root.isAbsolute = true) (q_absolute : q.isAbsolute = true) (same : q.Same root)
  (listed : s ∈ m.effectiveSources)

/-- The sources of a project and its root, of which one anchors each path. -/
def projectAnchors (m : Manifest) (q : Path) : List Path :=
  (m.effectiveSources.map fun s => q.join ⟨s⟩) ++ [q]

include root_absolute q_absolute same listed

/-- A source is its own anchor, under some spelling. -/
theorem anchorOf_source :
    (anchorOf d (projectAnchors m q) (root.join ⟨s⟩)).Same (root.join ⟨s⟩) := by
  have anchor : q.join ⟨s⟩ ∈ projectAnchors m q :=
    List.mem_append_left _ (List.mem_map_of_mem listed)
  have spelled : (q.join ⟨s⟩).components = (root.join ⟨s⟩).components :=
    same_join q_absolute root_absolute same
  obtain ⟨-, deeper, contained⟩ :=
    anchorOf_deepest (d := d) (p := root.join ⟨s⟩) anchor (by rw [spelled])
  rw [spelled] at deeper
  exact contained.eq_of_length_le deeper

theorem insideOf_source : insideOf d (projectAnchors m q) (root.join ⟨s⟩) = ⟨[]⟩ := by
  have absolute := isAbsolute_join_of_isAbsolute root_absolute ⟨s⟩
  have anchor : (anchorOf d (projectAnchors m q) (root.join ⟨s⟩)).components =
      (root.join ⟨s⟩).components :=
    anchorOf_source root_absolute q_absolute same listed
  have some_components :
      (anchorOf d (projectAnchors m q) (root.join ⟨s⟩)).components ≠ [] := by
    rw [anchor, components_of_isAbsolute absolute]
    exact List.cons_ne_nil _ _
  obtain ⟨segments, strips, written, parts, -⟩ :=
    stripPrefix?_spec absolute some_components (by rw [anchor])
  rw [anchor] at parts
  -- What remains ends with a name if it is anything, and there is no component left for one.
  have none : segments = [] := by
    by_contra some_segments
    exact componentsOf_ne_nil some_segments written.last (List.append_right_eq_self.mp parts.symm)
  rw [insideOf, strips, none]
  rfl

/-- **The files at the path of a source** are those that a scan of it lists. -/
theorem filesAt_source (file : d.isFile (root.join ⟨s⟩) = false) :
    filesAt d m (projectAnchors m q) (root.join ⟨s⟩) =
      (Scan.directory d m (root.join ⟨s⟩)).map fun f =>
        ⟨anchorOf d (projectAnchors m q) (root.join ⟨s⟩), f.relative⟩ := by
  by_cases dir : d.isDirectory (root.join ⟨s⟩) = true
  · have record : ∀ way, recordOf d (projectAnchors m q) (root.join ⟨s⟩) way =
        ⟨anchorOf d (projectAnchors m q) (root.join ⟨s⟩), ofNames way⟩ := by
      intro way
      rw [recordOf, insideOf_source root_absolute q_absolute same listed, nil_join]
    rw [filesAt_directory dir, Scan.directory_eq, List.map_filterMap]
    apply List.filterMap_congr
    intro way _
    rw [record]
    split <;> rfl
  · rw [filesAt_file dir, file, Scan.directory_eq, Scan.schemasBelow_eq_nil dir file]
    rfl

end Source

/-! ## The paths of all sources -/

def sourcePaths (root : Path) (m : Manifest) : List Path :=
  m.effectiveSources.map fun s => root.join ⟨s⟩

/-- Sources that are relative and never lead up, none of which is a file. -/
structure NamesDirectories (d : Disk) (root : Path) (m : Manifest) : Prop where
  relative : ∀ s ∈ m.effectiveSources, (⟨s⟩ : Path).isAbsolute = false
  descends : ∀ s ∈ m.effectiveSources, (⟨s⟩ : Path).Descends
  notFile : ∀ s ∈ m.effectiveSources, d.isFile (root.join ⟨s⟩) = false

instance (d : Disk) (root : Path) (m : Manifest) : Decidable (NamesDirectories d root m) :=
  decidable_of_iff
    ((∀ s ∈ m.effectiveSources, (⟨s⟩ : Path).isAbsolute = false) ∧
      (∀ s ∈ m.effectiveSources, (⟨s⟩ : Path).Descends) ∧
      ∀ s ∈ m.effectiveSources, d.isFile (root.join ⟨s⟩) = false)
    ⟨fun ⟨relative, descends, notFile⟩ => ⟨relative, descends, notFile⟩,
    fun h => ⟨h.relative, h.descends, h.notFile⟩⟩

/-- The first source leads to a spelling of the root where its manifest can be looked for. -/
def FirstInReach (root : Path) (m : Manifest) : Prop :=
  ∀ s ∈ m.effectiveSources.head?, (root.join ⟨s⟩).Same root →
    Disk.isUsable (manifestAt (root.join ⟨s⟩)) = true

instance (root : Path) (m : Manifest) : Decidable (FirstInReach root m) :=
  inferInstanceAs (Decidable (∀ s ∈ m.effectiveSources.head?, _))

/-- The same project and the same files in the same order, but for the spelling of directories. -/
structure AgreesWith (found whole : Discovery) : Prop where
  root : found.root.Same whole.root
  manifest : found.manifest = whole.manifest
  hasManifest : found.hasManifest = whole.hasManifest
  outputDirectory : found.outputDirectory.Same whole.outputDirectory
  files : List.Forall₂ SchemaFile.Same found.files whole.files

theorem effectiveSources_ne_nil (m : Manifest) : m.effectiveSources ≠ [] := by
  rw [Manifest.effectiveSources]
  split
  · exact List.cons_ne_nil _ _
  · assumption

theorem ofPaths_of_isAbsolute {d : Disk} {paths : List Path} (entered : d.removed = 0)
    (paths_absolute : ∀ p ∈ paths, p.isAbsolute = true) :
    ofPaths d paths = ofAbsolute d (absolute d.cwd) paths := by
  have kept : paths.map (absolute d.cwd).join = paths :=
    (List.map_congr_left fun p hp => if_pos (paths_absolute p hp)).trans (List.map_id paths)
  rw [ofPaths_eq_ofAbsolute entered]
  exact congrArg (ofAbsolute d _) kept

/-- Where a manifest is found, its directory is the root. -/
theorem projectRoot?_of_ofAbsolute {d : Disk} {cwd : Path} {paths : List Path} {found : Discovery}
    (h : ofAbsolute d cwd paths = .ok found) (manifest : found.hasManifest = true) :
    paths.head?.bind (projectRoot? d) = some found.root := by
  rw [ofAbsolute] at h
  split at h
  · next root nearest =>
    rw [nearest]
    split at h
    · cases h
    · cases h
      rfl
  · cases h
    cases manifest

section Project

variable {d : Disk} {root : Path} {m : Manifest} (holds : HoldsManifest d root m)

include holds

theorem ofProject_eq_scanned : ofProject d root = .ok (scanned d root m) := by
  rw [ofProject_of_contains (Disk.contains_of_isFile holds.isFile_root), holds.loads]
  rfl

theorem isAbsolute_of_mem_sourcePaths {p : Path} (h : p ∈ sourcePaths root m) :
    p.isAbsolute = true := by
  obtain ⟨s, -, rfl⟩ := List.mem_map.mp h
  exact isAbsolute_join_of_isAbsolute holds.absolute _

variable (named : NamesDirectories d root m)

include named

theorem files_sourcePaths {q : Path} (q_absolute : q.isAbsolute = true) (same : q.Same root) :
    List.Forall₂ SchemaFile.Same
      ((sourcePaths root m).map (filesAt d m (projectAnchors m q))).flatten
      (Scan.sources d m root m.effectiveSources) := by
  apply List.rel_flatten
  rw [sourcePaths, List.forall₂_map_left_iff, List.forall₂_map_left_iff,
    List.forall₂_map_right_iff, List.forall₂_same]
  intro s hs
  rw [filesAt_source holds.absolute q_absolute same hs (named.notFile s hs),
    List.forall₂_map_left_iff, List.forall₂_same]
  intro f hf
  obtain ⟨way, -, rfl⟩ := Scan.mem_directory hf
  exact ⟨anchorOf_source holds.absolute q_absolute same hs, rfl⟩

theorem exists_agreesWith (entered : d.removed = 0) (reach : FirstInReach root m) :
    ∃ found, ofPaths d (sourcePaths root m) = .ok found ∧
      found.AgreesWith (scanned d root m) := by
  obtain ⟨s, more, sources⟩ := List.exists_cons_of_ne_nil (effectiveSources_ne_nil m)
  have hs : s ∈ m.effectiveSources := by
    rw [sources]
    exact List.mem_cons_self
  -- The project is sought from the first of the paths alone.
  obtain ⟨q, nearest, q_absolute, same, isFile⟩ :=
    holds.projectRoot?_join (named.relative s hs) (named.descends s hs)
      (reach s (by rw [sources]; rfl))
  have first : (sourcePaths root m).head?.bind (projectRoot? d) = some q := by
    rw [sourcePaths, sources]
    exact nearest
  have ran : ofPaths d (sourcePaths root m) = .ok
      { root := q
        manifest := m
        hasManifest := true
        files := ((sourcePaths root m).map (filesAt d m (projectAnchors m q))).flatten } := by
    rw [ofPaths_of_isAbsolute entered fun p => isAbsolute_of_mem_sourcePaths holds, ofAbsolute,
      first]
    dsimp only
    rw [holds.loads_of_isFile isFile]
    rfl
  exact ⟨_, ran, same, rfl, rfl, same_join q_absolute holds.absolute same,
    files_sourcePaths holds named q_absolute same⟩

omit named in
/-- The same project is found only when the first source leads to its root. -/
theorem firstInReach_of_agreesWith {found : Discovery}
    (ran : ofPaths d (sourcePaths root m) = .ok found)
    (agrees : found.AgreesWith (scanned d root m)) : d.removed = 0 ∧ FirstInReach root m := by
  have entered := entered_of_ofPaths ran
  refine ⟨entered, fun s first same => ?_⟩
  rw [ofPaths_of_isAbsolute entered fun p => isAbsolute_of_mem_sourcePaths holds] at ran
  have nearest := projectRoot?_of_ofAbsolute ran agrees.hasManifest
  rw [sourcePaths, List.head?_map, Option.mem_def.mp first] at nearest
  by_contra long
  exact not_same_of_projectRoot? (isAbsolute_join_of_isAbsolute holds.absolute _) same
    (Bool.not_eq_true _ ▸ long) nearest agrees.root

/-- A file of the project, under another spelling of its directory. -/
theorem sameContents_of_same {f g : SchemaFile} (same : f.Same g)
    (listed : g ∈ (scanned d root m).files) (f_usable : Disk.isUsable f.fullPath = true)
    (g_usable : Disk.isUsable g.fullPath = true) : f.SameContents d g := by
  obtain ⟨files, among, hg⟩ := List.mem_flatten.mp listed
  obtain ⟨s, hs, rfl⟩ := List.mem_map.mp among
  obtain ⟨way, hw, rfl⟩ := Scan.mem_directory hg
  have names := Scan.isName_of_mem_schemasBelow hw
  have relative := isAbsolute_ofNames names
  obtain ⟨base, -, led, -⟩ := Scan.mem_schemasBelow hw
  have some_way : way ≠ [] := by
    by_cases dir : d.isDirectory (root.join ⟨s⟩) = true
    · exact Scan.ne_nil_of_mem_schemasBelow dir hw
    · rw [Scan.schemasBelow_eq_nil dir (named.notFile s hs)] at hw
      cases hw
  have ends : (ofNames way).EndsInName := (isWritten_names names).endsInName some_way
  have g_absolute := isAbsolute_join_of_isAbsolute holds.absolute ⟨s⟩
  have f_absolute := isAbsolute_of_same g_absolute same.root
  have fullPath : f.fullPath.Same ((root.join ⟨s⟩).join (ofNames way)) := by
    rw [SchemaFile.fullPath, same.relative]
    exact same_join f_absolute g_absolute same.root
  have plain := nul_not_mem_join (Disk.nul_not_mem_of_locate led) names
  refine ⟨fullPath, same.relative, Disk.readText_congr ?_⟩
  refine (Disk.locate_congr (isAbsolute_join_of_isAbsolute g_absolute _)
    (isAbsolute_join_of_isAbsolute f_absolute _) fullPath.symm (endsInName_join relative ends) ?_
    g_usable f_usable plain).symm
  rw [same.relative]
  exact endsInName_join relative ends

/-- Files in the same order are read as the same batch, as far as they can be reached. -/
theorem sameReport_of_agreesWith {found : Discovery}
    (agrees : found.AgreesWith (scanned d root m))
    (usable : ∀ f ∈ found.files ++ (scanned d root m).files,
      Disk.isUsable f.fullPath = true) :
    (Batch.ofFiles d found.manifest.readOptions found.files).SameReport
      (Batch.ofFiles d m.readOptions (scanned d root m).files) := by
  obtain ⟨found_usable, whole_usable⟩ := List.forall_mem_append.mp usable
  have reached : List.Forall₂ (fun g f => Disk.isUsable f.fullPath = true ∧ SchemaFile.Same f g)
      (scanned d root m).files found.files :=
    ((List.forall₂_and_left _ _).mpr ⟨found_usable, agrees.files⟩).flip
  have paired := (List.forall₂_and_left _ _).mpr
    ⟨fun g hg => And.intro hg (whole_usable g hg), reached⟩
  rw [agrees.manifest]
  apply Batch.ofFiles_congr
  refine paired.flip.imp ?_
  rintro f g ⟨⟨listed, g_usable⟩, f_usable, same⟩
  exact sameContents_of_same holds named same listed f_usable g_usable

/-- **Naming every source**: at the paths of all sources of a project the same is found as from its
root, exactly when there is a working directory, although no path is relative to it, and when the
manifest is in reach where the first source spells the root. For the batch that is read there is a
sufficient condition only: it is the same when no path is too long to be followed in either
spelling. -/
theorem sources_given :
    ∃ whole, ofProject d root = .ok whole ∧
      ((∃ found, ofPaths d (sourcePaths root m) = .ok found ∧ found.AgreesWith whole) ↔
        d.removed = 0 ∧ FirstInReach root m) ∧
      ∀ found : Discovery, found.AgreesWith whole →
        (∀ f ∈ found.files ++ whole.files, Disk.isUsable f.fullPath = true) →
        (Batch.ofFiles d found.manifest.readOptions found.files).SameReport
          (Batch.ofFiles d whole.manifest.readOptions whole.files) := by
  refine ⟨scanned d root m, ofProject_eq_scanned holds, ⟨?_, ?_⟩, ?_⟩
  · rintro ⟨found, ran, agrees⟩
    exact firstInReach_of_agreesWith holds ran agrees
  · rintro ⟨entered, reach⟩
    exact exists_agreesWith holds named entered reach
  · intro found agrees usable
    exact sameReport_of_agreesWith holds named agrees usable

end Project

/-- Sources of which one is the root, one is given twice and one does not exist. -/
def nestedSources : Manifest where
  sources := ["msg", ".", "msg/", "none"]

theorem nested_sources_given :
    ∃ whole found,
      ofProject (twoDirectories "sources: [msg, ., msg/, none]") ⟨"/"⟩ = .ok whole ∧
      ofPaths (twoDirectories "sources: [msg, ., msg/, none]") (sourcePaths ⟨"/"⟩ nestedSources) =
        .ok found ∧
      found.AgreesWith whole ∧ whole.files.length = 4 ∧
      (Batch.ofFiles (twoDirectories "sources: [msg, ., msg/, none]") found.manifest.readOptions
        found.files).SameReport
        (Batch.ofFiles (twoDirectories "sources: [msg, ., msg/, none]") whole.manifest.readOptions
          whole.files) := by
  have holds : HoldsManifest (twoDirectories "sources: [msg, ., msg/, none]") ⟨"/"⟩
      nestedSources := by
    decide +kernel
  have named : NamesDirectories (twoDirectories "sources: [msg, ., msg/, none]") ⟨"/"⟩
      nestedSources := by
    decide +kernel
  obtain ⟨whole, ran_whole, iff, report⟩ := sources_given holds named
  obtain ⟨found, ran, agrees⟩ := iff.mpr ⟨rfl, by decide +kernel⟩
  obtain ⟨whole', ran_whole', whole_files, whole_usable⟩ : ∃ whole,
      ofProject (twoDirectories "sources: [msg, ., msg/, none]") ⟨"/"⟩ = .ok whole ∧
      whole.files.length = 4 ∧ ∀ f ∈ whole.files, Disk.isUsable f.fullPath = true :=
    exists_ok_of_any (by decide +kernel)
  obtain ⟨found', ran', found_usable⟩ : ∃ found,
      ofPaths (twoDirectories "sources: [msg, ., msg/, none]")
        (sourcePaths ⟨"/"⟩ nestedSources) = .ok found ∧
      ∀ f ∈ found.files, Disk.isUsable f.fullPath = true :=
    exists_ok_of_any (by decide +kernel)
  obtain rfl : whole = whole' := Except.ok.inj (ran_whole.symm.trans ran_whole')
  obtain rfl : found = found' := Except.ok.inj (ran.symm.trans ran')
  exact ⟨whole, found, ran_whole, ran, agrees, whole_files,
    report found agrees (List.forall_mem_append.mpr ⟨found_usable, whole_usable⟩)⟩

/-- From a removed working directory nothing is found at the path of a source, although the path is
absolute and the whole project is found. -/
theorem source_not_given :
    HoldsManifest { twoDirectories "sources: [msg]" with cwd := ["gone"], removed := 1 } ⟨"/"⟩
      { sources := ["msg"] } ∧
    NamesDirectories { twoDirectories "sources: [msg]" with cwd := ["gone"], removed := 1 } ⟨"/"⟩
      { sources := ["msg"] } ∧
    (∃ whole, ofProject { twoDirectories "sources: [msg]" with cwd := ["gone"], removed := 1 }
      ⟨"/"⟩ = .ok whole ∧ whole.files = [⟨⟨"/msg"⟩, ⟨"A.msg"⟩⟩]) ∧
    ofPaths { twoDirectories "sources: [msg]" with cwd := ["gone"], removed := 1 }
      (sourcePaths ⟨"/"⟩ { sources := ["msg"] }) = .error lostDirectory :=
  ⟨by decide +kernel, by decide +kernel, exists_ok_of_any (by decide +kernel), rfl⟩

end Discovery

end MessageDocs
