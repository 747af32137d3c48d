import MessageDocs.Proofs.Discovery.AllSources
import MessageDocs.Proofs.Discovery.Sources
import MessageDocs.Proofs.Manifest.Pattern

/-! # Excluded files at given paths

The patterns of a project are matched against the path under which a file is recorded. The whole
project records each file from its source; at a directory that is given a file is recorded from the
source around the directory, or else from the root, so that more directories stand before its name.
Either way a file that is not excluded there is not excluded in the whole project, unless
the directory is written with more than the names on the way to it.

* `Discovery.GivenInside`: directories that are given inside a project.
* `Discovery.exists_endsAs`: how the path of a file ends that is found there.
* `Discovery.never_resurrected`: no file is found there that the whole project excludes.
-/

set_option autoImplicit false

namespace MessageDocs

open MessageDocs.Path

/-- Whether a path is written with the names on its way and nothing else. -/
def Path.IsPlain (p : Path) : Prop :=
  ∀ s ∈ segmentsOf p.text, IsName s

instance (p : Path) : Decidable p.IsPlain :=
  inferInstanceAs (Decidable (∀ s ∈ segmentsOf p.text, IsName s))

theorem Path.IsPlain.eq_ofNames {p : Path} (h : p.IsPlain) {names : List Text}
    (components : p.components = names.map .name) : p = ofNames names := by
  have whole : Text.join "/" (segmentsOf p.text) = p.text := Text.join_split '/' p.text
  have eq : ofNames (segmentsOf p.text) = p := congrArg Path.mk whole
  have own := components_ofNames h
  rw [eq, components] at own
  have same : names = segmentsOf p.text :=
    List.map_injective_iff.mpr (fun _ _ same => Component.name.inj same) own
  rw [same, eq]

namespace Discovery

/-- Directories that are given inside a project with a root. Neither they nor its sources lead up,
the sources are relative, and the manifest can be looked for from the first of them. -/
structure GivenInside (d : Disk) (root : Path) (m : Manifest) (paths : List Path) : Prop where
  entered : d.tree.node? d.cwd = some .directory
  descend : ∀ p ∈ paths, p.Descends
  inside : ∀ p ∈ paths, root.target d.cwd <+: givenLocation d p
  notFile : ∀ p ∈ paths, d.isFile (given d p) = false
  relative : ∀ s ∈ m.effectiveSources, (⟨s⟩ : Path).isAbsolute = false
  sources_descend : ∀ s ∈ m.effectiveSources, (⟨s⟩ : Path).Descends
  reach : ∀ p ∈ paths.head?, ∀ q ∈ (given d p).ancestors, q.target d.cwd = root.target d.cwd →
    Disk.isUsable (manifestAt q) = true

instance (d : Disk) (root : Path) (m : Manifest) (paths : List Path) :
    Decidable (GivenInside d root m paths) :=
  decidable_of_iff
    (d.tree.node? d.cwd = some .directory ∧ (∀ p ∈ paths, p.Descends) ∧
      (∀ p ∈ paths, root.target d.cwd <+: givenLocation d p) ∧
      (∀ p ∈ paths, d.isFile (given d p) = false) ∧
      (∀ s ∈ m.effectiveSources, (⟨s⟩ : Path).isAbsolute = false) ∧
      (∀ s ∈ m.effectiveSources, (⟨s⟩ : Path).Descends) ∧
      ∀ p ∈ paths.head?, ∀ q ∈ (given d p).ancestors, q.target d.cwd = root.target d.cwd →
        Disk.isUsable (manifestAt q) = true)
    ⟨fun ⟨entered, descend, inside, notFile, relative, sources, reach⟩ =>
      ⟨entered, descend, inside, notFile, relative, sources, reach⟩,
    fun h => ⟨h.entered, h.descend, h.inside, h.notFile, h.relative, h.sources_descend, h.reach⟩⟩

/-- A file beneath a source that can be opened by its path through each source around it. -/
structure OpensFromSources (d : Disk) (root : Path) (m : Manifest) (loc : Location) : Prop where
  beneath : ∃ s ∈ m.effectiveSources, (root.join ⟨s⟩).target d.cwd <+: loc
  opens : ∀ s ∈ m.effectiveSources, (root.join ⟨s⟩).target d.cwd <+: loc →
    d.isFile ((root.join ⟨s⟩).join (ofNames (remainder d (root.join ⟨s⟩) loc))) = true

instance (d : Disk) (root : Path) (m : Manifest) (loc : Location) :
    Decidable (OpensFromSources d root m loc) :=
  decidable_of_iff
    ((∃ s ∈ m.effectiveSources, (root.join ⟨s⟩).target d.cwd <+: loc) ∧
      ∀ s ∈ m.effectiveSources, (root.join ⟨s⟩).target d.cwd <+: loc →
        d.isFile ((root.join ⟨s⟩).join (ofNames (remainder d (root.join ⟨s⟩) loc))) = true)
    ⟨fun ⟨beneath, opens⟩ => ⟨beneath, opens⟩, fun h => ⟨h.beneath, h.opens⟩⟩

/-- Whether the path of a file is plain, if it is recorded under a source. -/
def PlainUnderSources (d : Disk) (root : Path) (m : Manifest) (f : SchemaFile) : Prop :=
  (∃ s ∈ m.effectiveSources, f.root.target d.cwd = (root.join ⟨s⟩).target d.cwd) →
    f.relative.IsPlain

instance (d : Disk) (root : Path) (m : Manifest) (f : SchemaFile) :
    Decidable (PlainUnderSources d root m f) :=
  inferInstanceAs (Decidable ((∃ s ∈ m.effectiveSources, _) → _))

/-! ## The project of given directories -/

section Given

variable {d : Disk} {root : Path} {m : Manifest} {paths : List Path} {found : Discovery}
  (holds : HoldsManifest d root m) (inside : GivenInside d root m paths)

theorem remainder_eq {dir : Path} {loc rest : Location} (h : dir.target d.cwd ++ rest = loc) :
    remainder d dir loc = rest := by
  rw [remainder, ← h, List.drop_left]

include holds in
theorem exists_ofPaths (entered : d.removed = 0) : ∃ found, ofPaths d paths = .ok found := by
  rw [ofPaths_eq_ofAbsolute entered, ofAbsolute]
  split
  · next q nearest =>
    obtain ⟨p, -, above⟩ := Option.bind_eq_some_iff.mp nearest
    rw [holds.loads_of_isFile (projectRoot?_spec above).2]
    exact ⟨_, rfl⟩
  · exact ⟨_, rfl⟩

include inside

theorem GivenInside.given_descends {p : Path} (hp : p ∈ paths) : (given d p).Descends :=
  descends_given inside.entered (inside.descend p hp)

include holds

theorem hasManifest_of_ofPaths (ran : ofPaths d paths = .ok found) (some_path : paths ≠ []) :
    found.hasManifest = true := by
  obtain ⟨p, rest, rfl⟩ := List.exists_cons_of_ne_nil some_path
  have hp : p ∈ p :: rest := List.mem_cons_self
  obtain ⟨q, nearest, isFile⟩ :=
    holds.projectRoot?_of_inside (isAbsolute_given d p) (inside.given_descends hp)
      (inside.inside p hp) (inside.reach p rfl)
  have first : ((p :: rest).map (given d)).head?.bind (projectRoot? d) = some q := nearest
  rw [ofPaths_eq_ofAbsolute (entered_of_ofPaths ran), ofAbsolute, first] at ran
  dsimp only at ran
  rw [holds.loads_of_isFile isFile] at ran
  cases ran
  rfl

/-- The project that is found at directories inside it. -/
structure FindsProject (d : Disk) (root : Path) (m : Manifest) (paths : List Path)
    (found : Discovery) : Prop where
  project : IsProject d paths found
  stays : StaysInside d paths found
  hasManifest : found.hasManifest = true
  manifest : found.manifest = m
  root_target : found.root.target d.cwd = root.target d.cwd

theorem findsProject (ran : ofPaths d paths = .ok found) (some_path : paths ≠ []) :
    FindsProject d root m paths found := by
  have hasManifest := hasManifest_of_ofPaths holds inside ran some_path
  have project := (ofPaths_eq_ok ran).2 hasManifest
  have root_target := holds.target_eq project.isFile
  have manifest : found.manifest = m :=
    Except.ok.inj (project.loads.symm.trans (holds.loads_of_isFile project.isFile))
  refine ⟨project, ⟨inside.entered, inside.descend, ?_, ?_, ?_⟩, hasManifest, manifest,
    root_target⟩
  · rw [root_target]
    exact inside.inside
  · rw [manifest]
    exact inside.relative
  · rw [manifest]
    exact inside.sources_descend

end Given

/-! ## Files of given directories -/

section Found

variable {d : Disk} {root : Path} {m : Manifest} {paths : List Path} {found : Discovery}
  (finds : FindsProject d root m paths found)

/-- What is written at the end of the path of a file, behind a directory on the way to it. -/
theorem recordOf_endsAs {anchors : List Path} {p : Path} {mid rest : Location}
    (names : ∀ n ∈ mid ++ rest, IsName n) (some_mid : mid ≠ []) (some_rest : rest ≠ []) :
    (recordOf d anchors p (mid ++ rest)).relative.EndsAs (ofNames rest) := by
  refine Or.inr ⟨(insideOf d anchors p).slashed ++ (ofNames mid).text, ?_⟩
  have way : (ofNames (mid ++ rest)).text = (ofNames mid).text ++ '/' :: (ofNames rest).text :=
    Text.join_append some_mid some_rest
  rw [recordOf, text_join _ (isAbsolute_ofNames names), way, List.append_assoc]

include finds

theorem source_relative {s : Text} (hs : s ∈ m.effectiveSources) :
    (⟨s⟩ : Path).isAbsolute = false :=
  finds.stays.relative s (by rwa [finds.manifest])

theorem sourceLocation_eq {s : Text} (hs : s ∈ m.effectiveSources) :
    sourceLocation d found s = (root.join ⟨s⟩).target d.cwd := by
  have relative := source_relative finds hs
  rw [sourceLocation, sourceDirectory, target_join _ relative, target_join _ relative,
    finds.root_target]

theorem isAbsolute_anchorsOf {a : Path} (ha : a ∈ anchorsOf d found) : a.isAbsolute = true :=
  isAbsolute_of_mem_anchorsOf (fun _ => finds.project) ha

structure FoundBelow (d : Disk) (found : Discovery) (p : Path) (way : Location) (f : SchemaFile) :
    Prop where
  scanned : way ∈ Scan.schemasBelow d (given d p)
  some_way : way ≠ []
  eq : f = recordOf d (anchorsOf d found) (given d p) way
  record : ∃ segments, IsRecordOf d (anchorsOf d found) (given d p) way f segments
  included : found.manifest.isExcluded f.relative = false
  target : f.target d.cwd = givenLocation d p ++ way

theorem exists_foundBelow {p : Path} (notFile : d.isFile (given d p) = false) {f : SchemaFile}
    (hf : f ∈ filesOf d found p) : ∃ way, FoundBelow d found p way f := by
  have absolute := isAbsolute_given d p
  by_cases dir : d.isDirectory (given d p) = true
  · rw [filesOf, filesAt_directory dir] at hf
    obtain ⟨way, hw, recorded⟩ := List.mem_filterMap.mp hf
    split at recorded
    · cases recorded
    · next included =>
      cases recorded
      have some_way := Scan.ne_nil_of_mem_schemasBelow dir hw
      obtain ⟨segments, record⟩ := isRecordOf_recordOf absolute
        (fun _ => isAbsolute_anchorsOf finds) (Or.inl dir) (Scan.isName_of_mem_schemasBelow hw)
        some_way
      exact ⟨way, hw, some_way, rfl, ⟨segments, record⟩, Bool.not_eq_true _ ▸ included,
        record.target_eq absolute (fun _ => isAbsolute_anchorsOf finds) (Or.inl dir) d.cwd⟩
  · rw [filesOf, filesAt_file dir, notFile] at hf
    cases hf

/-- A source that is around the directory as its anchor is, when no source is the anchor. -/
theorem not_contains_of_not_anchor {p : Path} (hp : p ∈ paths)
    (other : ∀ s ∈ found.manifest.effectiveSources,
      ¬(anchorOf d (anchorsOf d found) (given d p)).Same (sourceDirectory found s))
    {s : Text} (hs : s ∈ found.manifest.effectiveSources) :
    ¬sourceLocation d found s <+: givenLocation d p := by
  intro around
  have contains :=
    (source_contains_iff finds.project finds.stays hs hp).mpr around
  have listed := (mem_anchorsOf_iff (d := d) finds.hasManifest).mpr (Or.inl ⟨s, hs, rfl⟩)
  obtain ⟨among, deeper, -⟩ := anchorOf_deepest (d := d) listed contains
  rcases (mem_anchorsOf_iff finds.hasManifest).mp among with ⟨s', hs', eq⟩ | is_root
  · exact other s' hs' (eq ▸ rfl)
  · have above : found.root.components <+: (sourceDirectory found s).components := by
      rw [sourceDirectory,
        components_join finds.project.isAbsolute_root (finds.stays.relative s hs)]
      exact List.prefix_append _ _
    rw [is_root] at deeper
    exact other s hs (is_root ▸ above.eq_of_length_le deeper)

/-- **How the path of a file ends** that is found at a directory: as it is recorded from a source
around the file. -/
theorem exists_endsAs {p : Path} (hp : p ∈ paths) {way : Location} {f : SchemaFile}
    (below : FoundBelow d found p way f) (plain : PlainUnderSources d root m f) {s : Text}
    (hs : s ∈ m.effectiveSources) (around : sourceLocation d found s <+: f.target d.cwd)
    (proper : sourceLocation d found s ≠ f.target d.cwd) :
    ∃ s' ∈ m.effectiveSources, ∃ rest, sourceLocation d found s' ++ rest = f.target d.cwd ∧
      f.relative.EndsAs (ofNames rest) := by
  by_cases anchored : ∃ s' ∈ found.manifest.effectiveSources,
      (anchorOf d (anchorsOf d found) (given d p)).Same (sourceDirectory found s')
  · -- The file is recorded from a source, which is around it as well.
    obtain ⟨s', hs', same⟩ := anchored
    have listed : s' ∈ m.effectiveSources := finds.manifest ▸ hs'
    obtain ⟨segments, record⟩ := below.record
    have recorded := isRecordedUnder_of_isRecordOf finds.stays
      (finds.project.isAbsolute_source s') (descends_source finds.project finds.stays hs') hp same
      record
    have contains : (sourceDirectory found s').components <+: (given d p).components := by
      rw [← same]
      exact (anchorOf_deepest ((mem_anchorsOf_iff finds.hasManifest).mpr (Or.inr rfl))
        (root_contains finds.project finds.stays hp)).2.2
    obtain ⟨mid, eq⟩ := (source_contains_iff finds.project finds.stays hs' hp).mp contains
    have whole : sourceLocation d found s' ++ (mid ++ way) = givenLocation d p ++ way := by
      rw [← List.append_assoc, eq]
    have is_plain : f.relative.IsPlain := by
      refine plain ⟨s', listed, ?_⟩
      rw [← sourceLocation_eq finds listed, record.root, sourceLocation, Path.target, same]
      rfl
    refine ⟨s', listed, mid ++ way, whole.trans below.target.symm, Or.inl ?_⟩
    apply is_plain.eq_ofNames
    rw [recorded.relative, remainder_eq whole]
  · -- The file is recorded from the root, so each source around it is inside the given directory.
    have outside := not_contains_of_not_anchor finds hp
      (fun s' hs' same => anchored ⟨s', hs', same⟩) (finds.manifest.symm ▸ hs)
    obtain ⟨rest, eq⟩ := around
    rcases List.prefix_or_prefix_of_prefix ⟨rest, eq⟩ ⟨way, below.target.symm⟩ with
      inside | ⟨mid, eq_mid⟩
    · exact absurd inside outside
    · have some_mid : mid ≠ [] := by
        rintro rfl
        rw [List.append_nil] at eq_mid
        exact outside (eq_mid ▸ List.prefix_rfl)
      have some_rest : rest ≠ [] := by
        rintro rfl
        rw [List.append_nil] at eq
        exact proper eq
      have way_eq : way = mid ++ rest := by
        rw [below.target, ← eq_mid, List.append_assoc] at eq
        exact (List.append_cancel_left eq).symm
      refine ⟨s, hs, rest, eq, ?_⟩
      have names := Scan.isName_of_mem_schemasBelow below.scanned
      rw [below.eq, way_eq]
      rw [way_eq] at names
      exact recordOf_endsAs names some_mid some_rest

omit finds in
theorem endsWithSchema_append {before way : Location} (some_way : way ≠ []) :
    Scan.endsWithSchema (before ++ way) = Scan.endsWithSchema way := by
  rw [Scan.endsWithSchema, Scan.endsWithSchema, List.getLast?_append_of_ne_nil _ some_way]

omit finds in
/-- A file that is found at a directory is at the end of names, the last of which is that of a
schema. -/
theorem FoundBelow.names_and_schema {p : Path} {way : Location} {f : SchemaFile}
    (below : FoundBelow d found p way f) :
    (∀ n ∈ f.target d.cwd, IsName n) ∧ Scan.endsWithSchema (f.target d.cwd) = true := by
  obtain ⟨base, -, led, -⟩ := Scan.mem_schemasBelow below.scanned
  obtain ⟨n, listed, schema, -, -⟩ := (Scan.mem_schemasBelow_iff led).mp below.scanned
  have names := Scan.isName_of_mem_schemasBelow below.scanned
  rw [Scan.isSchemaFile_joinNames _ below.some_way names] at schema
  have base_eq : givenLocation d p = base := Disk.target_of_locate led
  rw [below.target, base_eq, endsWithSchema_append below.some_way]
  exact ⟨d.tree.named _ (FileTree.mem_below_iff.mp listed), schema⟩

end Found

/-- The directory of a file is listed by its path if the file can be opened by its own. -/
theorem isReached_of_locate {d : Disk} {p : Path} {way : Location} {dest : Destination}
    (names : ∀ n ∈ way, IsName n) (p_usable : Disk.isUsable p = true)
    (led : d.locate (p.join (ofNames way)) = .ok dest) : Scan.isReached p way = true := by
  have usable := Disk.isUsable_of_locate led
  rw [Scan.isReached, Bool.or_eq_true]
  refine Or.inr ?_
  by_cases none : way.dropLast = []
  · rw [none]
    exact p_usable
  · have before : ∀ n ∈ way.dropLast, IsName n := fun n hn => names n (List.mem_of_mem_dropLast hn)
    have shorter : (ofNames way.dropLast).text <+: (ofNames way).text :=
      Text.join_prefix (List.dropLast_prefix way)
    rw [Disk.isUsable, decide_eq_true_eq, text_join _ (isAbsolute_ofNames names)] at usable
    rw [Disk.isUsable, decide_eq_true_eq, text_joinNames _ before none]
    exact (byteLength_le_of_isPrefix ((List.prefix_append_right_inj _).mpr shorter)).trans usable

/-- **A file that is not excluded** is listed in the whole project, if it can be opened by its path
through the source. -/
theorem lists_of_isFile {d : Disk} {root : Path} {m : Manifest} (absolute : root.isAbsolute = true)
    {s : Text} (hs : s ∈ m.effectiveSources) {rest loc : Location}
    (leads : (root.join ⟨s⟩).target d.cwd ++ rest = loc) (names : ∀ n ∈ rest, IsName n)
    (schema : Scan.endsWithSchema loc = true)
    (file : d.isFile ((root.join ⟨s⟩).join (ofNames rest)) = true)
    (included : m.isExcluded (ofNames rest) = false) : Lists d (scanned d root m).files loc := by
  obtain ⟨l, c, led, node⟩ := Disk.isFile_iff.mp file
  obtain ⟨base, led_base, dir, rfl⟩ :=
    Disk.exists_of_locate_join (isAbsolute_join_of_isAbsolute absolute ⟨s⟩) names led
  rw [Disk.target_of_locate led_base] at leads
  have some_rest : rest ≠ [] := by
    rintro rfl
    rw [List.append_nil, dir] at node
    cases node
  rw [← leads, endsWithSchema_append some_rest] at schema
  have scan : rest ∈ Scan.schemasBelow d (root.join ⟨s⟩) := by
    refine (Scan.mem_schemasBelow_iff led_base).mpr
      ⟨.file c, (FileTree.mem_below_iff_node? some_rest).mpr node, ?_, ?_, rfl⟩
    · rwa [Scan.isSchemaFile_joinNames _ some_rest names]
    · exact isReached_of_locate names (Disk.isUsable_of_locate led_base) led
  refine ⟨⟨root.join ⟨s⟩, ofNames rest⟩, ?_, leads ▸ led⟩
  refine List.mem_flatten.mpr ⟨_, List.mem_map_of_mem hs, ?_⟩
  rw [Scan.directory_eq]
  exact List.mem_filterMap.mpr ⟨rest, scan, by rw [if_neg (by simp [included])]⟩

/-- The path of a source itself is not the path of a file, with a slash behind it. -/
theorem ne_of_opens {d : Disk} {root : Path} {m : Manifest} {loc : Location}
    (absolute : root.isAbsolute = true) (opens : OpensFromSources d root m loc) {s : Text}
    (hs : s ∈ m.effectiveSources) : (root.join ⟨s⟩).target d.cwd ≠ loc := by
  intro same
  have file := opens.opens s hs (same ▸ List.prefix_rfl)
  have nothing : remainder d (root.join ⟨s⟩) loc = [] :=
    remainder_eq ((List.append_nil _).trans same)
  rw [nothing] at file
  obtain ⟨l, c, led, node⟩ := Disk.isFile_iff.mp file
  obtain ⟨base, -, dir, rfl⟩ :=
    Disk.exists_of_locate_join (isAbsolute_join_of_isAbsolute absolute ⟨s⟩) (by simp) led
  rw [List.append_nil, dir] at node
  cases node

/-- **No excluded file is found** at directories that are given inside a project, unless one of them
is written with more than the names on the way from a source: whatever is found there beneath a
source is also found in the whole project. -/
theorem never_resurrected {d : Disk} {root : Path} {m : Manifest} {paths : List Path}
    (holds : HoldsManifest d root m) (inside : GivenInside d root m paths) :
    ∃ whole, ofProject d root = .ok whole ∧
      (d.removed = 0 → ∃ found, ofPaths d paths = .ok found) ∧
      ∀ found, ofPaths d paths = .ok found → ∀ f ∈ found.files,
        OpensFromSources d root m (f.target d.cwd) → PlainUnderSources d root m f →
        Lists d whole.files (f.target d.cwd) := by
  refine ⟨scanned d root m, ofProject_eq_scanned holds, exists_ofPaths holds, ?_⟩
  intro found ran f hf opens plain
  rw [(ofPaths_eq_ok ran).1] at hf
  obtain ⟨files, among, hf⟩ := List.mem_flatten.mp hf
  obtain ⟨p, hp, rfl⟩ := List.mem_map.mp among
  have finds := findsProject holds inside ran (List.ne_nil_of_mem hp)
  obtain ⟨way, below⟩ := exists_foundBelow finds (inside.notFile p hp) hf
  obtain ⟨names, schema⟩ := below.names_and_schema
  obtain ⟨s, hs, around⟩ := opens.beneath
  have proper := ne_of_opens holds.absolute opens hs
  rw [← sourceLocation_eq finds hs] at around proper
  obtain ⟨s', hs', rest, leads, ends⟩ := exists_endsAs finds hp below plain hs around proper
  rw [sourceLocation_eq finds hs'] at leads
  have file := opens.opens s' hs' ⟨rest, leads⟩
  rw [remainder_eq leads] at file
  rw [← leads] at names
  -- A pattern that excludes the path from the source excludes what was recorded as well.
  have included : m.isExcluded (ofNames rest) = false := by
    by_contra excluded
    have resurrected := Manifest.isExcluded_of_endsAs ends (Bool.not_eq_false _ ▸ excluded)
    rw [← finds.manifest, below.included] at resurrected
    cases resurrected
  exact lists_of_isFile holds.absolute hs' leads
    (fun n hn => names n (List.mem_append_right _ hn)) schema file included

/-- A disk with a project that excludes one of its two schemas, which lie one directory below the
other. -/
def excludingDisk : Disk where
  tree := (do
    let t ← FileTree.empty.putFile [Manifest.fileName]
      (.text "sources: [msg]\nexcludes: [a/b/*]")
    let t ← t.putDirectory ["msg"]
    let t ← t.putDirectory ["msg", "a"]
    let t ← t.putFile ["msg", "a", "A.msg"] (.text "u8 x")
    let t ← t.putDirectory ["msg", "a", "b"]
    t.putFile ["msg", "a", "b", "B.msg"] (.text "u8 y")).getD FileTree.empty
  cwd := []

def excludingManifest : Manifest where
  sources := ["msg"]
  excludes := ["a/b/*"]

theorem excluded_not_resurrected :
    ∃ found whole, ofPaths excludingDisk [⟨"./msg/a"⟩, ⟨"."⟩] = .ok found ∧
      ofProject excludingDisk ⟨"/"⟩ = .ok whole ∧
      found.files = [⟨⟨"/msg"⟩, ⟨"a/A.msg"⟩⟩, ⟨⟨"/"⟩, ⟨"msg/a/A.msg"⟩⟩] ∧
      ∀ f ∈ found.files, Lists excludingDisk whole.files (f.target excludingDisk.cwd) := by
  have holds : HoldsManifest excludingDisk ⟨"/"⟩ excludingManifest := by decide +kernel
  have inside : GivenInside excludingDisk ⟨"/"⟩ excludingManifest [⟨"./msg/a"⟩, ⟨"."⟩] := by
    decide +kernel
  obtain ⟨whole, ran_whole, -, lists⟩ := never_resurrected holds inside
  obtain ⟨found, ran, files, spec⟩ : ∃ found,
      ofPaths excludingDisk [⟨"./msg/a"⟩, ⟨"."⟩] = .ok found ∧
      found.files = [⟨⟨"/msg"⟩, ⟨"a/A.msg"⟩⟩, ⟨⟨"/"⟩, ⟨"msg/a/A.msg"⟩⟩] ∧
      ∀ f ∈ found.files,
        OpensFromSources excludingDisk ⟨"/"⟩ excludingManifest (f.target excludingDisk.cwd) ∧
        PlainUnderSources excludingDisk ⟨"/"⟩ excludingManifest f :=
    exists_ok_of_any (by decide +kernel)
  exact ⟨found, whole, ran, ran_whole, files,
    fun f hf => lists found ran f hf (spec f hf).1 (spec f hf).2⟩

/-- With one slash too many in the way to its directory the excluded file is found. -/
theorem excluded_resurrected :
    HoldsManifest excludingDisk ⟨"/"⟩ excludingManifest ∧
    GivenInside excludingDisk ⟨"/"⟩ excludingManifest [⟨"msg/a//b"⟩] ∧
    (∃ found, ofPaths excludingDisk [⟨"msg/a//b"⟩] = .ok found ∧ ∃ f ∈ found.files,
      f.relative = ⟨"a//b/B.msg"⟩ ∧ f.target excludingDisk.cwd = ["msg", "a", "b", "B.msg"] ∧
      OpensFromSources excludingDisk ⟨"/"⟩ excludingManifest (f.target excludingDisk.cwd)) ∧
    ∃ whole, ofProject excludingDisk ⟨"/"⟩ = .ok whole ∧
      ¬Lists excludingDisk whole.files ["msg", "a", "b", "B.msg"] :=
  ⟨by decide +kernel, by decide +kernel, exists_ok_of_any (by decide +kernel),
    exists_ok_of_any (by decide +kernel)⟩

end Discovery

end MessageDocs
