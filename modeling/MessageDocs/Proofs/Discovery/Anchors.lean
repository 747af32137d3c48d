import MessageDocs.Discovery
import MessageDocs.Proofs.Discovery.Scan

/-! # The directories under which files are recorded

Each path that is given is taken apart into an anchor and what remains, and the ways to the files
under the path go on from there. So an anchor always contains the path, and the files of a path
are where the path and the way from it lead.

* `Discovery.deepest?_spec`: the deepest anchor is one of the anchors, and none is deeper.
* `Discovery.exists_isFoundAt`: how a file is found at a path, and how it is recorded.
* `Discovery.filesAt_listsOnce`: no file is found twice at a path.
* `Discovery.ofProject_eq_ok` and `Discovery.ofPaths_eq_ok`: what is found at several places.
-/

set_option autoImplicit false

namespace MessageDocs

namespace Path

/-! ## Parents and ancestors -/

theorem exists_parent?_of_name {p : Path} {n : Text}
    (h : p.components.getLast? = some (.name n)) : ∃ q, p.parent? = some q := by
  by_cases some_segment : p.parts.segments.any isSignificant = true
  · rw [parent?, if_pos some_segment]
    exact ⟨_, rfl⟩
  · have none_left : p.parts.segments.filterMap Component.ofSegment? = [] := by
      apply componentsOf_eq_nil
      simpa using some_segment
    rw [components, none_left, List.append_nil] at h
    have lead : p.parts.lead ≠ some (.name n) := by
      unfold parts
      split <;> simp
    cases leads : p.parts.lead with
    | none =>
      rw [leads] at h
      cases h
    | some c =>
      rw [leads] at h lead
      exact absurd h lead

theorem ancestorsUpTo_spec {k : Nat} {p q : Path} (absolute : p.isAbsolute = true)
    (h : q ∈ ancestorsUpTo k p) : q.isAbsolute = true ∧ q.components <+: p.components := by
  induction k generalizing p with
  | zero =>
    rw [List.mem_singleton.mp h]
    exact ⟨absolute, List.prefix_rfl⟩
  | succ k ih =>
    rw [ancestorsUpTo] at h
    split at h
    · rw [List.mem_singleton.mp h]
      exact ⟨absolute, List.prefix_rfl⟩
    · next parent up =>
      rcases List.mem_cons.mp h with rfl | above
      · exact ⟨absolute, List.prefix_rfl⟩
      · obtain ⟨parent_absolute, parent_components⟩ := parent?_spec absolute up
        obtain ⟨q_absolute, q_components⟩ := ih parent_absolute above
        rw [parent_components] at q_components
        exact ⟨q_absolute, q_components.trans (List.dropLast_prefix _)⟩

/-- What is above a path that never leads up does not lead up either. -/
theorem Descends.of_mem_ancestors {p q : Path} (h : p.Descends) (absolute : p.isAbsolute = true)
    (above : q ∈ p.ancestors) : q.Descends :=
  fun up => h ((ancestorsUpTo_spec absolute above).2.subset up)

end Path

namespace Discovery

open MessageDocs.Path

/-! ## Anchors -/

theorem deepest?_eq_none_iff {anchors : List Path} : deepest? anchors = none ↔ anchors = [] := by
  cases anchors with
  | nil => exact iff_of_true rfl rfl
  | cons p rest =>
    refine iff_of_false ?_ (List.cons_ne_nil p rest)
    rw [deepest?]
    split
    · simp
    · split <;> simp

/-- **The deepest anchor** is one of the anchors, and none is deeper. -/
theorem deepest?_spec {anchors : List Path} {a : Path} (h : deepest? anchors = some a) :
    a ∈ anchors ∧ ∀ other ∈ anchors, other.components.length ≤ a.components.length := by
  induction anchors generalizing a with
  | nil => cases h
  | cons p rest ih =>
    rw [deepest?] at h
    cases deeper : deepest? rest with
    | none =>
      rw [deeper] at h
      cases h
      rw [deepest?_eq_none_iff.mp deeper]
      simp
    | some other =>
      rw [deeper] at h
      dsimp only at h
      obtain ⟨listed, deepest⟩ := ih deeper
      split at h
      · next shorter =>
        cases h
        exact ⟨List.mem_cons_of_mem p listed, List.forall_mem_cons.mpr ⟨shorter, deepest⟩⟩
      · next longer =>
        cases h
        refine ⟨List.mem_cons_self, List.forall_mem_cons.mpr ⟨le_refl _, ?_⟩⟩
        intro q hq
        exact (deepest q hq).trans (Nat.le_of_not_le longer)

section Files

variable {d : Disk} {m : Manifest} {anchors : List Path} {p : Path}

/-- A path has an anchor when it is a directory, or may be a schema file. -/
def HasAnchor (d : Disk) (p : Path) : Prop :=
  d.isDirectory p = true ∨ Scan.isSchemaFile p = true

theorem directoryOf?_spec (absolute : p.isAbsolute = true) (h : HasAnchor d p) :
    ∃ q, directoryOf? d p = some q ∧ q.isAbsolute = true ∧ q.components <+: p.components := by
  rw [directoryOf?]
  by_cases dir : d.isDirectory p = true
  · rw [if_pos dir]
    exact ⟨p, rfl, absolute, List.prefix_rfl⟩
  · rw [if_neg dir]
    obtain ⟨before, n, components, -⟩ := exists_components_of_isSchemaFile (h.resolve_left dir)
    have last : p.components.getLast? = some (.name n) := by
      rw [components, List.getLast?_concat]
    obtain ⟨q, up⟩ := exists_parent?_of_name last
    obtain ⟨q_absolute, q_components⟩ := parent?_spec absolute up
    refine ⟨q, up, q_absolute, ?_⟩
    rw [q_components]
    exact List.dropLast_prefix _

/-- **An anchor** contains the path that is recorded under it. -/
theorem anchorOf_spec (absolute : p.isAbsolute = true)
    (anchors_absolute : ∀ a ∈ anchors, a.isAbsolute = true) (h : HasAnchor d p) :
    (anchorOf d anchors p).isAbsolute = true ∧
      (anchorOf d anchors p).components <+: p.components := by
  rw [anchorOf]
  split
  · next a deepest =>
    obtain ⟨listed, starts⟩ := List.mem_filter.mp (deepest?_spec deepest).1
    exact ⟨anchors_absolute a listed, startsWith_iff.mp starts⟩
  · obtain ⟨q, found, spec⟩ := directoryOf?_spec absolute h
    rw [found]
    exact spec

/-- An anchor that contains the path is no deeper than the one it is recorded under. -/
theorem anchorOf_deepest {a : Path} (listed : a ∈ anchors)
    (contains : a.components <+: p.components) :
    anchorOf d anchors p ∈ anchors ∧
      a.components.length ≤ (anchorOf d anchors p).components.length ∧
      (anchorOf d anchors p).components <+: p.components := by
  have among : a ∈ anchors.filter (p.startsWith ·) :=
    List.mem_filter.mpr ⟨listed, startsWith_iff.mpr contains⟩
  rw [anchorOf]
  split
  · next deepest found =>
    obtain ⟨here, deeper⟩ := deepest?_spec found
    obtain ⟨listed, starts⟩ := List.mem_filter.mp here
    exact ⟨listed, deeper a among, startsWith_iff.mp starts⟩
  · next none =>
    rw [deepest?_eq_none_iff.mp none] at among
    cases among

/-! ## Files at a path -/

/-- What remains of a path after its anchor. -/
def insideOf (d : Disk) (anchors : List Path) (p : Path) : Path :=
  (p.stripPrefix? (anchorOf d anchors p)).getD ⟨[]⟩

theorem insideOf_spec (absolute : p.isAbsolute = true)
    (anchors_absolute : ∀ a ∈ anchors, a.isAbsolute = true) (h : HasAnchor d p) :
    ∃ segments, insideOf d anchors p = ofNames segments ∧ IsWritten segments ∧
      p.components = (anchorOf d anchors p).components ++ componentsOf segments ∧
      (p.IsTidy → ∀ s ∈ segments, isSignificant s = true) := by
  obtain ⟨anchor_absolute, contains⟩ := anchorOf_spec absolute anchors_absolute h
  have some_components : (anchorOf d anchors p).components ≠ [] := by
    rw [components_of_isAbsolute anchor_absolute]
    exact List.cons_ne_nil _ _
  obtain ⟨segments, strips, spec⟩ := stripPrefix?_spec absolute some_components contains
  rw [insideOf, strips]
  exact ⟨segments, rfl, spec⟩

/-- The record of the file that a way leads to from a path. -/
def recordOf (d : Disk) (anchors : List Path) (p : Path) (way : Location) : SchemaFile :=
  ⟨anchorOf d anchors p, (insideOf d anchors p).join (ofNames way)⟩

theorem directory_default (d : Disk) (p : Path) :
    Scan.directory d {} p = (Scan.schemasBelow d p).map fun way => ⟨p, ofNames way⟩ := by
  rw [Scan.directory_eq, ← List.filterMap_eq_map]
  rfl

theorem filesAt_directory (dir : d.isDirectory p = true) :
    filesAt d m anchors p = (Scan.schemasBelow d p).filterMap fun way =>
      if m.isExcluded (recordOf d anchors p way).relative then none
      else some (recordOf d anchors p way) := by
  rw [filesAt, if_pos dir, directory_default, List.map_map, List.filterMap_map]
  rfl

theorem filesAt_file (dir : ¬d.isDirectory p = true) :
    filesAt d m anchors p =
      if d.isFile p && Scan.isSchemaFile p then
        [⟨anchorOf d anchors p, insideOf d anchors p⟩]
      else [] := by
  rw [filesAt, if_neg dir]
  rfl

/-- How a file is recorded that is found at a path: the segments of its relative path complete
the anchor to the path that it is found at and the names on the way from there. -/
structure IsRecordOf (d : Disk) (anchors : List Path) (p : Path) (way : Location)
    (f : SchemaFile) (segments : List Text) : Prop where
  root : f.root = anchorOf d anchors p
  relative : f.relative = ofNames segments
  written : IsWritten segments
  tidy : p.IsTidy → ∀ s ∈ segments, isSignificant s = true
  parts : (anchorOf d anchors p).components ++ componentsOf segments =
    p.components ++ way.map .name

theorem isRecordOf_recordOf (absolute : p.isAbsolute = true)
    (anchors_absolute : ∀ a ∈ anchors, a.isAbsolute = true) (h : HasAnchor d p) {way : Location}
    (names : ∀ n ∈ way, IsName n) (some_names : way ≠ []) :
    ∃ segments, IsRecordOf d anchors p way (recordOf d anchors p way) segments := by
  obtain ⟨segments, inside, written, parts, tidy⟩ := insideOf_spec absolute anchors_absolute h
  have joined : (insideOf d anchors p).join (ofNames way) = ofNames (segments ++ way) := by
    rw [inside, written.join_eq (isWritten_names names) some_names]
  refine ⟨segments ++ way, rfl, joined, written.append (isWritten_names names), ?_, ?_⟩
  · intro is_tidy s hs
    rcases List.mem_append.mp hs with hs | hs
    · exact tidy is_tidy s hs
    · exact isSignificant_of_isName (names s hs)
  · rw [componentsOf_append, ← List.append_assoc, ← parts, componentsOf_names names]

/-- How a file is found at a path: some way down from a directory, or where the path leads. -/
def IsFoundAt (d : Disk) (p : Path) (way : Location) : Prop :=
  (d.isDirectory p = true ∧ way ∈ Scan.schemasBelow d p ∧ way ≠ []) ∨
    (way = [] ∧ d.isFile p = true ∧ Scan.isSchemaFile p = true)

theorem IsFoundAt.hasAnchor {way : Location} (h : IsFoundAt d p way) : HasAnchor d p :=
  h.imp And.left fun h => h.2.2

/-- **How a file is recorded** that is found at a path. -/
theorem exists_isFoundAt (absolute : p.isAbsolute = true)
    (anchors_absolute : ∀ a ∈ anchors, a.isAbsolute = true) {f : SchemaFile}
    (h : f ∈ filesAt d m anchors p) :
    ∃ way segments, IsFoundAt d p way ∧ IsRecordOf d anchors p way f segments := by
  by_cases dir : d.isDirectory p = true
  · rw [filesAt_directory dir] at h
    obtain ⟨way, hw, recorded⟩ := List.mem_filterMap.mp h
    split at recorded
    · cases recorded
    · cases recorded
      have some_way := Scan.ne_nil_of_mem_schemasBelow dir hw
      obtain ⟨segments, record⟩ := isRecordOf_recordOf absolute anchors_absolute (Or.inl dir)
        (Scan.isName_of_mem_schemasBelow hw) some_way
      exact ⟨way, segments, Or.inl ⟨dir, hw, some_way⟩, record⟩
  · rw [filesAt_file dir] at h
    split at h
    · next file =>
      obtain ⟨is_file, schema⟩ := Bool.and_eq_true_iff.mp file
      obtain ⟨segments, inside, written, parts, tidy⟩ :=
        insideOf_spec absolute anchors_absolute (Or.inr schema)
      rw [List.mem_singleton.mp h]
      refine ⟨[], segments, Or.inr ⟨rfl, is_file, schema⟩, rfl, inside, written, tidy, ?_⟩
      rw [List.map_nil, List.append_nil, parts]
    · cases h

theorem mem_filesAt (absolute : p.isAbsolute = true)
    (anchors_absolute : ∀ a ∈ anchors, a.isAbsolute = true) {f : SchemaFile}
    (h : f ∈ filesAt d m anchors p) :
    HasAnchor d p ∧ ∃ way segments, IsRecordOf d anchors p way f segments := by
  obtain ⟨way, segments, found, record⟩ := exists_isFoundAt absolute anchors_absolute h
  exact ⟨found.hasAnchor, way, segments, record⟩

theorem IsRecordOf.components_eq {way : Location} {f : SchemaFile} {segments : List Text}
    (record : IsRecordOf d anchors p way f segments) (absolute : p.isAbsolute = true)
    (anchors_absolute : ∀ a ∈ anchors, a.isAbsolute = true) (h : HasAnchor d p) :
    f.fullPath.components = p.components ++ way.map .name := by
  obtain ⟨anchor_absolute, -⟩ := anchorOf_spec absolute anchors_absolute h
  rw [SchemaFile.fullPath, record.root, record.relative,
    components_join anchor_absolute record.written.isAbsolute_eq, ← record.parts, ofNames,
    componentsOf_segmentsOf_join record.written.plain]

/-- The file is where the path that it is found at leads, and the way from there. -/
theorem IsRecordOf.target_eq {way : Location} {f : SchemaFile} {segments : List Text}
    (record : IsRecordOf d anchors p way f segments) (absolute : p.isAbsolute = true)
    (anchors_absolute : ∀ a ∈ anchors, a.isAbsolute = true) (h : HasAnchor d p) (cwd : Location) :
    f.target cwd = p.target cwd ++ way := by
  rw [SchemaFile.target, Path.target, record.components_eq absolute anchors_absolute h,
    steps_append, steps_names]
  rfl

/-- **No file is found twice** at a path. -/
theorem filesAt_listsOnce (absolute : p.isAbsolute = true)
    (anchors_absolute : ∀ a ∈ anchors, a.isAbsolute = true) :
    ListsOnce d.cwd (p.target d.cwd) (filesAt d m anchors p) := by
  by_cases dir : d.isDirectory p = true
  · rw [filesAt_directory dir]
    apply ListsOnce.of_ways (Scan.nodup_schemasBelow d p)
    intro way hw f recorded
    split at recorded
    · cases recorded
    · cases recorded
      obtain ⟨segments, record⟩ := isRecordOf_recordOf absolute anchors_absolute (Or.inl dir)
        (Scan.isName_of_mem_schemasBelow hw) (Scan.ne_nil_of_mem_schemasBelow dir hw)
      exact record.target_eq absolute anchors_absolute (Or.inl dir) d.cwd
  · rw [filesAt_file dir]
    split
    · next file =>
      have listed : (⟨anchorOf d anchors p, insideOf d anchors p⟩ : SchemaFile) ∈
          filesAt d m anchors p := by
        rw [filesAt_file dir, if_pos file]
        exact List.mem_singleton_self _
      obtain ⟨anchor, way, segments, record⟩ := mem_filesAt absolute anchors_absolute listed
      apply ListsOnce.singleton
      rw [record.target_eq absolute anchors_absolute anchor]
      exact List.prefix_append _ way
    · exact ListsOnce.nil _ _

end Files

/-! ## Several places -/

/-- A path that is given, seen from the working directory. -/
def given (d : Disk) (p : Path) : Path :=
  (absolute d.cwd).join p

def givenLocation (d : Disk) (p : Path) : Location :=
  (given d p).target d.cwd

/-- The directory of a source of the project. -/
def sourceDirectory (found : Discovery) (source : Text) : Path :=
  found.root.join ⟨source⟩

def sourceLocation (d : Disk) (found : Discovery) (source : Text) : Location :=
  (sourceDirectory found source).target d.cwd

/-- The directories under which files are recorded that are found at given paths: the sources of
the project and its root, or without a manifest the working directory. -/
def anchorsOf (d : Disk) (found : Discovery) : List Path :=
  if found.hasManifest then
    found.manifest.effectiveSources.map (sourceDirectory found) ++ [found.root]
  else
    [absolute d.cwd]

/-- The files that are found at one of the given paths. -/
def filesOf (d : Disk) (found : Discovery) (p : Path) : List SchemaFile :=
  filesAt d found.manifest (anchorsOf d found) (given d p)

/-- The files that are found in a source of the project. -/
def filesIn (d : Disk) (found : Discovery) (source : Text) : List SchemaFile :=
  Scan.directory d found.manifest (sourceDirectory found source)

/-- The project of a discovery: its root is at or above one of the paths and holds the manifest. -/
structure IsProject (d : Disk) (paths : List Path) (found : Discovery) : Prop where
  above : ∃ p ∈ paths, found.root ∈ (given d p).ancestors
  isFile : d.isFile (manifestAt found.root) = true
  loads : loadManifest d (manifestAt found.root) = .ok found.manifest

/-- The project of a root, with what a scan of its sources lists. -/
def scanned (d : Disk) (root : Path) (m : Manifest) : Discovery where
  root := root
  manifest := m
  hasManifest := true
  files := Scan.sources d m root m.effectiveSources

/-- Where something has the name of the manifest, the manifest decides. -/
theorem ofProject_of_contains {d : Disk} {root : Path}
    (there : d.contains (manifestAt root) = true) :
    ofProject d root = (loadManifest d (manifestAt root)).map (scanned d root) := by
  rw [ofProject, if_pos there]
  cases loadManifest d (manifestAt root) <;> rfl

theorem ofProject_eq_ok {d : Disk} {root : Path} {found : Discovery}
    (h : ofProject d root = .ok found) :
    found.root = root ∧
      found.files = (found.manifest.effectiveSources.map (filesIn d found)).flatten := by
  rw [ofProject] at h
  split at h
  · split at h
    · cases h
    · cases h
      exact ⟨rfl, rfl⟩
  · cases h
    exact ⟨rfl, rfl⟩

/-- The root that is found from a path is an ancestor of it with a manifest. -/
theorem projectRoot?_spec {d : Disk} {p root : Path} (h : projectRoot? d p = some root) :
    root ∈ p.ancestors ∧ d.isFile (manifestAt root) = true :=
  ⟨List.mem_of_find?_eq_some h, by simpa using List.find?_some h⟩

theorem ofPaths_eq_ofAbsolute {d : Disk} (entered : d.removed = 0) (paths : List Path) :
    ofPaths d paths = ofAbsolute d (absolute d.cwd) (paths.map (given d)) := by
  rw [ofPaths, Disk.cwdPath?, if_pos entered]
  rfl

/-- Nothing is found at paths from a working directory that has been removed. -/
theorem entered_of_ofPaths {d : Disk} {paths : List Path} {found : Discovery}
    (h : ofPaths d paths = .ok found) : d.removed = 0 := by
  by_contra gone
  rw [ofPaths, Disk.cwdPath?, if_neg gone] at h
  cases h

theorem ofPaths_eq_ok {d : Disk} {paths : List Path} {found : Discovery}
    (h : ofPaths d paths = .ok found) :
    found.files = (paths.map (filesOf d found)).flatten ∧
      (found.hasManifest = true → IsProject d paths found) := by
  have same : ∀ m anchors, (paths.map (given d)).map (filesAt d m anchors) =
      paths.map fun p => filesAt d m anchors (given d p) :=
    fun _ _ => List.map_map
  rw [ofPaths_eq_ofAbsolute (entered_of_ofPaths h)] at h
  unfold ofAbsolute at h
  split at h
  · next root nearest =>
    split at h
    · cases h
    · next manifest loads =>
      cases h
      refine ⟨congrArg List.flatten (same _ _), fun _ => ?_⟩
      obtain ⟨p, first, found⟩ := Option.bind_eq_some_iff.mp nearest
      obtain ⟨q, hq, rfl⟩ := List.mem_map.mp (List.mem_of_head? first)
      obtain ⟨above, holds⟩ := projectRoot?_spec found
      exact ⟨⟨q, hq, above⟩, holds, loads⟩
  · cases h
    exact ⟨congrArg List.flatten (same _ _), fun none => nomatch none⟩

theorem descends_given {d : Disk} (entered : d.tree.node? d.cwd = some .directory) {p : Path}
    (h : p.Descends) : (given d p).Descends := by
  have names : ∀ n ∈ d.cwd, IsName n := FileTree.names_of_node? entered
  exact (descends_absolute names).join h

theorem isAbsolute_given (d : Disk) (p : Path) : (given d p).isAbsolute = true :=
  isAbsolute_join_of_isAbsolute (isAbsolute_absolute d.cwd) p

section Project

variable {d : Disk} {paths : List Path} {found : Discovery}

theorem IsProject.isAbsolute_root (h : IsProject d paths found) :
    found.root.isAbsolute = true := by
  obtain ⟨p, -, above⟩ := h.above
  exact (ancestorsUpTo_spec (isAbsolute_given d p) above).1

theorem IsProject.isAbsolute_source (h : IsProject d paths found) (source : Text) :
    (sourceDirectory found source).isAbsolute = true :=
  isAbsolute_join_of_isAbsolute h.isAbsolute_root _

theorem mem_anchorsOf_iff (manifest : found.hasManifest = true) {a : Path} :
    a ∈ anchorsOf d found ↔
      (∃ source ∈ found.manifest.effectiveSources, sourceDirectory found source = a) ∨
        a = found.root := by
  rw [anchorsOf, if_pos manifest, List.mem_append, List.mem_map, List.mem_singleton]

theorem isAbsolute_of_mem_anchorsOf (h : found.hasManifest = true → IsProject d paths found)
    {a : Path} (ha : a ∈ anchorsOf d found) : a.isAbsolute = true := by
  by_cases manifest : found.hasManifest = true
  · rcases (mem_anchorsOf_iff manifest).mp ha with ⟨source, -, rfl⟩ | rfl
    · exact (h manifest).isAbsolute_source source
    · exact (h manifest).isAbsolute_root
  · rw [anchorsOf, if_neg manifest] at ha
    rw [List.mem_singleton.mp ha]
    exact isAbsolute_absolute d.cwd

end Project

end Discovery

end MessageDocs
