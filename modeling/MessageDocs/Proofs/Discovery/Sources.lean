import MessageDocs.Proofs.Discovery.Overlap

/-! # Files under the sources of a project

A scan of the whole project records each file under the source that contains it. At given paths
the anchor is chosen once for a path, before the files under it are known: a path inside the
source has the source as its anchor, a path that only contains the source has the root of the
project.

* `Discovery.anchorOf_same_source` and `Discovery.anchorOf_same_root`: the anchor of a path above
  a file of just one source.
* `Discovery.recorded_under_source`: how such a file is recorded, at paths and in the project.
-/

set_option autoImplicit false

namespace MessageDocs.Discovery

open MessageDocs.Path

/-! ## Files of one source -/

/-- Paths given inside a project. Neither they nor its sources lead up, and the sources are
relative. -/
structure StaysInside (d : Disk) (paths : List Path) (found : Discovery) : Prop where
  entered : d.tree.node? d.cwd = some .directory
  descend : ∀ p ∈ paths, p.Descends
  inside : ∀ p ∈ paths, found.root.target d.cwd <+: givenLocation d p
  relative : ∀ s ∈ found.manifest.effectiveSources, (⟨s⟩ : Path).isAbsolute = false
  sources_descend : ∀ s ∈ found.manifest.effectiveSources, (⟨s⟩ : Path).Descends

instance (d : Disk) (paths : List Path) (found : Discovery) :
    Decidable (StaysInside d paths found) :=
  decidable_of_iff
    (d.tree.node? d.cwd = some .directory ∧ (∀ p ∈ paths, p.Descends) ∧
      (∀ p ∈ paths, found.root.target d.cwd <+: givenLocation d p) ∧
      (∀ s ∈ found.manifest.effectiveSources, (⟨s⟩ : Path).isAbsolute = false) ∧
      ∀ s ∈ found.manifest.effectiveSources, (⟨s⟩ : Path).Descends)
    ⟨fun ⟨entered, descend, inside, relative, sources⟩ =>
      ⟨entered, descend, inside, relative, sources⟩,
    fun h => ⟨h.entered, h.descend, h.inside, h.relative, h.sources_descend⟩⟩

/-- A location beneath just one directory among those of the sources. -/
structure OnlySource (d : Disk) (found : Discovery) (source : Text) (loc : Location) : Prop where
  listed : source ∈ found.manifest.effectiveSources
  beneath : sourceLocation d found source <+: loc
  only : ∀ other ∈ found.manifest.effectiveSources, sourceLocation d found other <+: loc →
    sourceLocation d found other = sourceLocation d found source

instance (d : Disk) (found : Discovery) (source : Text) (loc : Location) :
    Decidable (OnlySource d found source loc) :=
  decidable_of_iff
    (source ∈ found.manifest.effectiveSources ∧ sourceLocation d found source <+: loc ∧
      ∀ other ∈ found.manifest.effectiveSources, sourceLocation d found other <+: loc →
        sourceLocation d found other = sourceLocation d found source)
    ⟨fun ⟨listed, beneath, only⟩ => ⟨listed, beneath, only⟩,
    fun h => ⟨h.listed, h.beneath, h.only⟩⟩

/-- What is left of a location inside a directory. -/
def remainder (d : Disk) (dir : Path) (loc : Location) : Location :=
  loc.drop (dir.target d.cwd).length

/-- A file at a location that is recorded under a directory: its relative path goes through the
names that are left, and when it has to be plain it is written with nothing else. -/
structure IsRecordedUnder (d : Disk) (dir : Path) (loc : Location) (plain : Prop)
    (f : SchemaFile) : Prop where
  root : f.root.Same dir
  relative : f.relative.components = (remainder d dir loc).map .name
  written : plain → f.relative = ofNames (remainder d dir loc)

section

variable {d : Disk} {paths : List Path} {found : Discovery}

theorem StaysInside.given_descends (stays : StaysInside d paths found) {p : Path}
    (hp : p ∈ paths) : (given d p).Descends :=
  descends_given stays.entered (stays.descend p hp)

/-- How a file is recorded that is found at a path, when its anchor is known. -/
theorem isRecordedUnder_of_isRecordOf (stays : StaysInside d paths found) {dir p : Path}
    (dir_absolute : dir.isAbsolute = true) (dir_descends : dir.Descends) (hp : p ∈ paths)
    (same : (anchorOf d (anchorsOf d found) (given d p)).Same dir) {way : Location}
    {f : SchemaFile} {segments : List Text}
    (record : IsRecordOf d (anchorsOf d found) (given d p) way f segments) :
    IsRecordedUnder d dir (givenLocation d p ++ way) (given d p).IsTidy f := by
  have parts := record.parts
  rw [Same] at same
  rw [same, components_of_target dir_absolute dir_descends d.cwd,
    components_of_target (isAbsolute_given d p) (stays.given_descends hp) d.cwd,
    List.cons_append, List.cons_append, List.cons_inj_right, ← List.map_append] at parts
  have remains : componentsOf segments =
      (remainder d dir (givenLocation d p ++ way)).map .name := by
    rw [remainder, List.map_drop, givenLocation, ← parts, List.drop_left' (List.length_map ..)]
  refine ⟨?_, ?_, ?_⟩
  · rw [record.root]
    exact same
  · rw [record.relative, record.written.components_eq, remains]
  · intro tidy
    rw [record.relative, segments_eq_of_componentsOf (record.tidy tidy) remains]

section Project

variable (project : IsProject d paths found) (stays : StaysInside d paths found)

include project stays

theorem descends_root : found.root.Descends := by
  obtain ⟨p, hp, above⟩ := project.above
  exact (stays.given_descends hp).of_mem_ancestors (isAbsolute_given d p) above

theorem descends_source {source : Text} (hs : source ∈ found.manifest.effectiveSources) :
    (sourceDirectory found source).Descends :=
  (descends_root project stays).join (stays.sources_descend source hs)

/-- Sources that lead to one location are one directory. -/
theorem source_same {a b : Text} (ha : a ∈ found.manifest.effectiveSources)
    (hb : b ∈ found.manifest.effectiveSources)
    (h : sourceLocation d found a = sourceLocation d found b) :
    (sourceDirectory found a).Same (sourceDirectory found b) :=
  same_of_target (project.isAbsolute_source a) (descends_source project stays ha)
    (project.isAbsolute_source b) (descends_source project stays hb) d.cwd h

theorem source_contains_iff {source : Text} (hs : source ∈ found.manifest.effectiveSources)
    {p : Path} (hp : p ∈ paths) :
    (sourceDirectory found source).components <+: (given d p).components ↔
      sourceLocation d found source <+: givenLocation d p :=
  isPrefix_iff_target (project.isAbsolute_source source) (descends_source project stays hs)
    (isAbsolute_given d p) (stays.given_descends hp) d.cwd

theorem root_contains {p : Path} (hp : p ∈ paths) :
    found.root.components <+: (given d p).components :=
  (isPrefix_iff_target project.isAbsolute_root (descends_root project stays)
    (isAbsolute_given d p) (stays.given_descends hp) d.cwd).mpr (stays.inside p hp)

/-! ## The anchor of a path -/

section Anchor

variable {source : Text} {loc : Location} (one : OnlySource d found source loc) {p : Path}
  (hp : p ∈ paths) (under : givenLocation d p <+: loc)

include one hp under

/-- An anchor that is a source around a path to the file is the one source of the file. -/
theorem source_eq_of_contains {s : Text} (hs : s ∈ found.manifest.effectiveSources)
    (contains : (sourceDirectory found s).components <+: (given d p).components) :
    sourceLocation d found s = sourceLocation d found source :=
  one.only s hs (((source_contains_iff project stays hs hp).mp contains).trans under)

theorem anchorOf_same_source (manifest : found.hasManifest = true)
    (inside : sourceLocation d found source <+: givenLocation d p) :
    (anchorOf d (anchorsOf d found) (given d p)).Same (sourceDirectory found source) := by
  have listed := (mem_anchorsOf_iff (d := d) manifest).mpr (Or.inl ⟨source, one.listed, rfl⟩)
  have starts := (source_contains_iff project stays one.listed hp).mpr inside
  obtain ⟨among, deeper, contained⟩ := anchorOf_deepest (d := d) listed starts
  rcases (mem_anchorsOf_iff manifest).mp among with ⟨s, hs, eq⟩ | root
  · rw [← eq] at contained ⊢
    exact source_same project stays hs one.listed
      (source_eq_of_contains project stays one hp under hs contained)
  · -- The root is an anchor as deep as the source only when it is the source.
    rw [root] at deeper ⊢
    have above : found.root.components <+: (sourceDirectory found source).components := by
      rw [sourceDirectory,
        components_join project.isAbsolute_root (stays.relative source one.listed)]
      exact List.prefix_append _ _
    exact above.eq_of_length_le deeper

theorem anchorOf_same_root (manifest : found.hasManifest = true)
    (apart : ¬sourceLocation d found source <+: givenLocation d p) :
    (anchorOf d (anchorsOf d found) (given d p)).Same found.root := by
  have listed := (mem_anchorsOf_iff (d := d) manifest).mpr (Or.inr rfl)
  obtain ⟨among, -, contained⟩ :=
    anchorOf_deepest (d := d) listed (root_contains project stays hp)
  rcases (mem_anchorsOf_iff manifest).mp among with ⟨s, hs, eq⟩ | root
  · rw [← eq] at contained
    have contains := (source_contains_iff project stays hs hp).mp contained
    rw [source_eq_of_contains project stays one hp under hs contained] at contains
    exact absurd contains apart
  · rw [root]
    rfl

end Anchor

/-! ## Records -/

theorem isRecordedUnder_of_mem_filesOf (manifest : found.hasManifest = true) {source : Text}
    {loc : Location} (one : OnlySource d found source loc) {p : Path} (hp : p ∈ paths)
    {f : SchemaFile} (hf : f ∈ filesOf d found p) (isAt : f.IsAt d loc) :
    IsRecordedUnder d
      (if sourceLocation d found source <+: givenLocation d p then sourceDirectory found source
        else found.root) loc (given d p).IsTidy f := by
  have anchors_absolute : ∀ a ∈ anchorsOf d found, a.isAbsolute = true :=
    fun _ => isAbsolute_of_mem_anchorsOf fun _ => project
  obtain ⟨anchor, way, segments, record⟩ :=
    mem_filesAt (isAbsolute_given d p) anchors_absolute hf
  have target : givenLocation d p ++ way = loc := by
    rw [← isAt.target_eq]
    exact (record.target_eq (isAbsolute_given d p) anchors_absolute anchor d.cwd).symm
  have under : givenLocation d p <+: loc := ⟨way, target⟩
  rw [← target]
  split
  · next inside =>
    exact isRecordedUnder_of_isRecordOf stays (project.isAbsolute_source source)
      (descends_source project stays one.listed) hp
      (anchorOf_same_source project stays one hp under manifest inside) record
  · next apart =>
    exact isRecordedUnder_of_isRecordOf stays project.isAbsolute_root
      (descends_root project stays) hp
      (anchorOf_same_root project stays one hp under manifest apart) record

theorem isRecordedUnder_of_mem_filesIn {source : Text} {loc : Location}
    (one : OnlySource d found source loc) {s : Text}
    (hs : s ∈ found.manifest.effectiveSources) {f : SchemaFile} (hf : f ∈ filesIn d found s)
    (isAt : f.IsAt d loc) : IsRecordedUnder d (sourceDirectory found source) loc True f := by
  obtain ⟨way, hw, rfl⟩ := Scan.mem_directory hf
  have target : sourceLocation d found s ++ way = loc := by
    rw [← isAt.target_eq]
    exact (Scan.target_way hw d.cwd).symm
  have this_source := one.only s hs ⟨way, target⟩
  have way_eq : way = remainder d (sourceDirectory found source) loc := by
    rw [remainder, ← target]
    exact (List.drop_left' (congrArg List.length this_source)).symm
  have names := Scan.isName_of_mem_schemasBelow hw
  refine ⟨source_same project stays hs one.listed this_source, ?_, ?_⟩
  · rw [← way_eq]
    exact components_ofNames names
  · intro _
    rw [← way_eq]

end Project

/-- The same project is found by its root alone. -/
theorem IsProject.ofProject_eq (project : IsProject d paths found) :
    ofProject d found.root = .ok
      { root := found.root
        manifest := found.manifest
        hasManifest := true
        files := (found.manifest.effectiveSources.map (filesIn d found)).flatten } := by
  rw [ofProject_of_contains (Disk.contains_of_isFile project.isFile), project.loads]
  rfl

/-- **Files of just one source**, where a manifest has been found. At a path inside the source
they are recorded under it, as they are in the whole project; at a path that contains the source
they are recorded under the root of the project. -/
theorem recorded_under_source (ran : ofPaths d paths = .ok found)
    (manifest : found.hasManifest = true) (stays : StaysInside d paths found) {source : Text}
    {loc : Location} (one : OnlySource d found source loc) :
    (found.files = (paths.map (filesOf d found)).flatten ∧
      ∀ p ∈ paths, ∀ f ∈ filesOf d found p, f.IsAt d loc →
        IsRecordedUnder d
          (if sourceLocation d found source <+: givenLocation d p then
            sourceDirectory found source
          else
            found.root) loc (given d p).IsTidy f) ∧
      ∃ whole, ofProject d found.root = .ok whole ∧ ∀ f ∈ whole.files, f.IsAt d loc →
        IsRecordedUnder d (sourceDirectory found source) loc True f := by
  obtain ⟨files, is_project⟩ := ofPaths_eq_ok ran
  have project := is_project manifest
  refine ⟨⟨files, ?_⟩, _, project.ofProject_eq, ?_⟩
  · intro p hp f hf isAt
    exact isRecordedUnder_of_mem_filesOf project stays manifest one hp hf isAt
  · intro f hf isAt
    obtain ⟨files, listed, hf⟩ := List.mem_flatten.mp hf
    obtain ⟨s, hs, rfl⟩ := List.mem_map.mp listed
    exact isRecordedUnder_of_mem_filesIn project stays one hs hf isAt

theorem msg_recorded_under_source :
    ∃ found, ofPaths (twoDirectories "sources: [msg, srv]") [⟨"msg"⟩] = .ok found ∧
      found.hasManifest = true ∧
      StaysInside (twoDirectories "sources: [msg, srv]") [⟨"msg"⟩] found ∧
      OnlySource (twoDirectories "sources: [msg, srv]") found "msg" ["msg", "A.msg"] ∧
      ∃ f ∈ found.files, f.IsAt (twoDirectories "sources: [msg, srv]") ["msg", "A.msg"] ∧
        sourceLocation (twoDirectories "sources: [msg, srv]") found "msg" <+:
          givenLocation (twoDirectories "sources: [msg, srv]") ⟨"msg"⟩ ∧
        IsRecordedUnder (twoDirectories "sources: [msg, srv]") (sourceDirectory found "msg")
          ["msg", "A.msg"] (given (twoDirectories "sources: [msg, srv]") ⟨"msg"⟩).IsTidy f := by
  obtain ⟨found, ran, manifest, stays, one, inside, f, hf, isAt⟩ : ∃ found,
      ofPaths (twoDirectories "sources: [msg, srv]") [⟨"msg"⟩] = .ok found ∧
      found.hasManifest = true ∧
      StaysInside (twoDirectories "sources: [msg, srv]") [⟨"msg"⟩] found ∧
      OnlySource (twoDirectories "sources: [msg, srv]") found "msg" ["msg", "A.msg"] ∧
      sourceLocation (twoDirectories "sources: [msg, srv]") found "msg" <+:
        givenLocation (twoDirectories "sources: [msg, srv]") ⟨"msg"⟩ ∧
      ∃ f ∈ found.files, f.IsAt (twoDirectories "sources: [msg, srv]") ["msg", "A.msg"] :=
    exists_ok_of_any (by decide +kernel)
  obtain ⟨⟨files, recorded⟩, -⟩ := recorded_under_source ran manifest stays one
  have single : f ∈ filesOf (twoDirectories "sources: [msg, srv]") found ⟨"msg"⟩ := by
    rw [files] at hf
    simpa using hf
  have record := recorded _ (List.mem_singleton_self _) f single isAt
  rw [if_pos inside] at record
  exact ⟨found, ran, manifest, stays, one, f, hf, isAt, inside, record⟩

/-- A path that contains a source has the root of the project as its anchor, so the files of the
source are not recorded under it. -/
theorem dot_recorded_under_root :
    ∃ found, ofPaths (twoDirectories "sources: [msg, srv]") [⟨"."⟩] = .ok found ∧
      found.hasManifest = true ∧
      StaysInside (twoDirectories "sources: [msg, srv]") [⟨"."⟩] found ∧
      OnlySource (twoDirectories "sources: [msg, srv]") found "msg" ["msg", "A.msg"] ∧
      ∃ f ∈ found.files, f.IsAt (twoDirectories "sources: [msg, srv]") ["msg", "A.msg"] ∧
        f.relative = ⟨"msg/A.msg"⟩ ∧ ¬f.root.Same (sourceDirectory found "msg") :=
  exists_ok_of_any (by decide +kernel)

end

end MessageDocs.Discovery
