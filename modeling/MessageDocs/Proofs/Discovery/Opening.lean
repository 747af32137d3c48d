import MessageDocs.Proofs.Discovery.Parts
import MessageDocs.Proofs.Disk.Spelling

/-! # Opening the files that are found

A file is recorded by a directory and the path from there, and opened by the two joined. They are
joined in another form than the one in which the file was found, so it takes an argument that they
lead to it: the components are the same, and both forms end with the name of the file. Nothing is
left to join when a source of the manifest is a schema file itself; such an entry can not be opened.

* `Disk.IsSound`: a disk as a system keeps it.
* `SchemaFile.Opens`: what is expected of an entry.
* `Discovery.files_open`: which entries of a discovery can be opened, and which ones can not.
-/

set_option autoImplicit false

namespace MessageDocs

open MessageDocs.Path

/-- A disk whose names are no longer than a system allows, with a working directory that is there
unless it has been removed. -/
structure Disk.IsSound (d : Disk) : Prop where
  short : ∀ e ∈ d.tree.entries, ∀ n ∈ e.1, n.byteLength ≤ Disk.longestName
  entered : d.removed = 0 → d.tree.node? d.cwd = some .directory

instance (d : Disk) : Decidable d.IsSound :=
  decidable_of_iff
    ((∀ e ∈ d.tree.entries, ∀ n ∈ e.1, n.byteLength ≤ Disk.longestName) ∧
      (d.removed = 0 → d.tree.node? d.cwd = some .directory))
    ⟨fun ⟨short, entered⟩ => ⟨short, entered⟩, fun h => ⟨h.short, h.entered⟩⟩

theorem Disk.IsSound.short_of_node? {d : Disk} (sound : d.IsSound) {loc : Location} {node : Node}
    (h : d.tree.node? loc = some node) : ∀ n ∈ loc, n.byteLength ≤ Disk.longestName := by
  rcases FileTree.mem_of_node? h with ⟨root, -⟩ | listed
  · rw [root]
    exact fun _ hn => nomatch hn
  · exact sound.short _ listed

/-- Names lead to what they are the names of. -/
theorem Disk.IsSound.walk_names {d : Disk} (sound : d.IsSound) {base way : Location} {node : Node}
    (h : d.tree.node? (base ++ way) = some node) :
    Disk.walk d.tree base way = .ok (base ++ way) :=
  Disk.walk_names_of_node h (FileTree.isName_of_node? h)
    fun n hn => sound.short_of_node? h n (List.mem_append_right base hn)

namespace SchemaFile

/-- An entry that can be opened: its path leads to a file with the extension of schemas, whose stem
is the name of the message. -/
structure Opens (d : Disk) (f : SchemaFile) : Prop where
  named : f.relative.text ≠ []
  file : ∃ loc name c, d.locate f.fullPath = .ok (.location loc) ∧
    d.tree.node? loc = some (.file c) ∧ loc.getLast? = some name ∧
    (cutExtension name).2 = some Scan.schemaExtension ∧
    f.relative.fileStem? = some (cutExtension name).1 ∧
    Message.nameOfPath f.relative = (cutExtension name).1

/-- An entry that leads to a node with the name of a schema opens when this is a file. -/
theorem opens_iff {d : Disk} {f : SchemaFile} {loc : Location} {node : Node} {name : Text}
    (leads : Disk.isUsable f.fullPath = true → d.locate f.fullPath = .ok (.location loc))
    (at_loc : d.tree.node? loc = some node) (last : loc.getLast? = some name)
    (schema : (cutExtension name).2 = some Scan.schemaExtension)
    (some_text : f.relative.text ≠ []) (named : f.relative.fileName? = some name) :
    f.Opens d ↔ f.relative.text ≠ [] ∧ Disk.isUsable f.fullPath = true ∧
      d.isDirectory f.fullPath = false := by
  constructor
  · intro h
    obtain ⟨loc, name, c, led, file, -⟩ := h.file
    refine ⟨some_text, Disk.isUsable_of_locate led, ?_⟩
    rw [Disk.isDirectory, Disk.node_of_locate led file]
  · rintro ⟨-, usable, notDirectory⟩
    have led := leads usable
    cases node with
    | directory =>
      rw [Disk.isDirectory, Disk.node_of_locate led at_loc] at notDirectory
      cases notDirectory
    | file c =>
      have stem : f.relative.fileStem? = some (cutExtension name).1 := by
        rw [fileStem?, named]
        rfl
      refine ⟨some_text, loc, name, c, led, at_loc, last, schema, stem, ?_⟩
      rw [Message.nameOfPath, stem, Option.getD_some]

end SchemaFile

namespace Path

theorem fileName?_of_components {p : Path} (before : List Component) {n : Text}
    (h : p.components = before ++ [.name n]) : p.fileName? = some n := by
  rw [fileName?, h, List.getLast?_concat]

end Path

namespace Scan

/-- What a scan lists some way down ends with the name of a schema. -/
theorem exists_name_of_mem_schemasBelow {d : Disk} {root : Path} {way : Location}
    (h : way ∈ schemasBelow d root) (some_way : way ≠ []) :
    ∃ before name, way = before ++ [name] ∧ (cutExtension name).2 = some schemaExtension := by
  obtain ⟨base, n, led, -⟩ := mem_schemasBelow h
  obtain ⟨node, -, schema, -⟩ := (mem_schemasBelow_iff led).mp h
  rw [isSchemaFile_joinNames root some_way (isName_of_mem_schemasBelow h)] at schema
  obtain ⟨before, name, rfl⟩ := List.eq_nil_or_concat' way |>.resolve_left some_way
  refine ⟨before, name, rfl, ?_⟩
  simpa [endsWithSchema] using schema

end Scan

namespace Discovery

/-! ## Entries of a project -/

section Project

variable {d : Disk} {m : Manifest} {root : Path} {f : SchemaFile}

/-- Where nothing is left to join, the scan began at a file. -/
theorem isFile_of_nil_mem_schemasBelow (h : [] ∈ Scan.schemasBelow d root) :
    ∃ c, d.tree.node? (root.target d.cwd) = some (.file c) := by
  obtain ⟨base, n, led, below⟩ := Scan.mem_schemasBelow h
  obtain ⟨node, below, -, -, counts⟩ := (Scan.mem_schemasBelow_iff led).mp h
  have here : d.tree.node? base = some node := by
    have listed := FileTree.mem_below_iff.mp below
    rw [List.append_nil] at listed
    exact FileTree.node?_of_mem listed
  rw [Disk.target_of_locate led, here]
  cases node with
  | file c => exact ⟨c, rfl⟩
  | directory =>
    change (!Disk.isUsable root) = true at counts
    rw [Disk.isUsable_of_locate led] at counts
    cases counts

theorem opens_of_mem_directory (sound : d.IsSound) (h : f ∈ Scan.directory d m root) :
    (f.Opens d ↔ f.relative.text ≠ [] ∧ Disk.isUsable f.fullPath = true) ∧
      (f.relative.text = [] →
        f.root = root ∧ ∃ c, d.tree.node? (root.target d.cwd) = some (.file c)) := by
  obtain ⟨way, hw, rfl⟩ := Scan.mem_directory h
  by_cases here : way = []
  · subst here
    refine ⟨iff_of_false (fun h => h.named rfl) fun h => h.1 rfl, fun _ => ⟨rfl, ?_⟩⟩
    exact isFile_of_nil_mem_schemasBelow hw
  · obtain ⟨base, -, led, -⟩ := Scan.mem_schemasBelow hw
    obtain ⟨node, below, -, -, counts⟩ := (Scan.mem_schemasBelow_iff led).mp hw
    have at_loc := (FileTree.mem_below_iff_node? here).mp below
    have names := Scan.isName_of_mem_schemasBelow hw
    have some_text := text_ofNames_ne_nil names here
    obtain ⟨before, name, rfl, schema⟩ := Scan.exists_name_of_mem_schemasBelow hw here
    have text : (root.join (ofNames (before ++ [name]))).text =
        (root.joinNames (before ++ [name])).text := by
      rw [text_join _ (isAbsolute_ofNames names), text_joinNames root names here]
    have leads : Disk.isUsable (root.join (ofNames (before ++ [name]))) = true →
        d.locate (root.join (ofNames (before ++ [name]))) =
          .ok (.location (base ++ (before ++ [name]))) := by
      intro usable
      have plain : '\x00' ∉ (ofNames (before ++ [name])).text := by
        rw [nul_mem_iff, componentsOf_ofNames names]
        exact nul_not_mem_of_names names
      rw [Disk.locate_join_eq led (isAbsolute_ofNames names) plain usable,
        (isWritten_names names).segmentsOf_eq here, sound.walk_names at_loc]
      rfl
    have named : (ofNames (before ++ [name])).fileName? = some name := by
      apply fileName?_of_components (before.map .name)
      rw [components_ofNames names, List.map_append, List.map_singleton]
    refine ⟨?_, fun none => absurd none some_text⟩
    rw [SchemaFile.opens_iff (f := ⟨root, ofNames (before ++ [name])⟩) leads at_loc (by simp) schema
      some_text named]
    refine and_congr_right fun _ => and_iff_left_of_imp fun usable => ?_
    -- A directory is listed only where its path is too long.
    cases node with
    | file c =>
      rw [Disk.isDirectory, SchemaFile.fullPath, Disk.node_of_locate (leads usable) at_loc]
    | directory =>
      have longer : Disk.isUsable (root.joinNames (before ++ [name])) = true := by
        rw [Disk.isUsable, ← text]
        exact usable
      rw [Scan.countsAsFile, longer] at counts
      cases counts

end Project

/-! ## Entries at a path -/

section Paths

variable {d : Disk} {m : Manifest} {anchors : List Path} {p : Path} {way : Location}
  {f : SchemaFile} {segments : List Text}

/-- A spelling of the path to what is found at a path: one that ends with its name. -/
structure Spells (d : Disk) (p : Path) (way : Location) (q : Path) (node : Node) (name : Text) :
    Prop where
  absolute : q.isAbsolute = true
  ends : q.EndsInName
  plain : '\x00' ∉ q.text
  components : q.components = p.components ++ way.map .name
  last : ∃ before, q.components = before ++ [.name name]
  schema : (cutExtension name).2 = some Scan.schemaExtension
  walked : Disk.walk d.tree [] (segmentsOf q.text) = .ok (q.target d.cwd)
  at_target : d.tree.node? (q.target d.cwd) = some node
  /-- A directory is found only where its path is too long. -/
  too_long : node = .directory → Disk.isUsable (p.joinNames way) = false

theorem exists_spells (sound : d.IsSound) (absolute : p.isAbsolute = true)
    (found : IsFoundAt d p way) : ∃ q node name, Spells d p way q node name := by
  rcases found with ⟨dir, hw, some_way⟩ | ⟨rfl, file, schema⟩
  · obtain ⟨base, -, led, -⟩ := Scan.mem_schemasBelow hw
    obtain ⟨node, below, -, -, counts⟩ := (Scan.mem_schemasBelow_iff led).mp hw
    have at_loc := (FileTree.mem_below_iff_node? some_way).mp below
    have names := Scan.isName_of_mem_schemasBelow hw
    have relative := isAbsolute_ofNames names
    have target : (p.join (ofNames way)).target d.cwd = base ++ way := by
      rw [target_join p relative, Disk.target_of_locate led, target_ofNames names]
    have components : (p.join (ofNames way)).components = p.components ++ way.map .name := by
      rw [components_join absolute relative, componentsOf_ofNames names]
    obtain ⟨before, name, way_eq, schema⟩ := Scan.exists_name_of_mem_schemasBelow hw some_way
    refine ⟨p.join (ofNames way), node, name,
      { absolute := isAbsolute_join_of_isAbsolute absolute _
        ends := endsInName_join relative ((isWritten_names names).endsInName some_way)
        plain := nul_not_mem_join (Disk.nul_not_mem_of_locate led) names
        components := components
        last := ⟨p.components ++ before.map .name, ?_⟩
        schema := schema
        walked := ?_
        at_target := by rw [target, at_loc]
        too_long := ?_ }⟩
    · rw [components, way_eq, List.map_append, List.append_assoc, List.map_singleton]
    · rw [Disk.walk_join relative (Disk.walk_of_locate absolute led),
        (isWritten_names names).segmentsOf_eq some_way, sound.walk_names at_loc, target]
    · rintro rfl
      simpa [Scan.countsAsFile] using counts
  · obtain ⟨before, name, components, extension⟩ := exists_components_of_isSchemaFile schema
    obtain ⟨loc, c, led, at_loc⟩ := Disk.isFile_iff.mp file
    have target := Disk.target_of_locate led
    exact ⟨p, .file c, name,
      { absolute := absolute
        ends := Disk.endsInName_of_isFile absolute file
        plain := Disk.nul_not_mem_of_locate led
        components := by rw [List.map_nil, List.append_nil]
        last := ⟨before, components⟩
        schema := extension
        walked := by rw [Disk.walk_of_locate absolute led, target]
        at_target := by rw [target, at_loc]
        too_long := fun dir => by cases dir }⟩

/-- Segments that are not empty end with the last component of what they complete. -/
theorem IsRecordOf.fileName?_eq (record : IsRecordOf d anchors p way f segments)
    (some_segments : segments ≠ []) {before : List Component} {name : Text}
    (h : p.components ++ way.map .name = before ++ [.name name]) :
    f.relative.fileName? = some name := by
  obtain ⟨first, last, components⟩ := List.eq_nil_or_concat' (componentsOf segments)
    |>.resolve_left (componentsOf_ne_nil some_segments record.written.last)
  have parts := record.parts
  rw [h, components, ← List.append_assoc] at parts
  obtain ⟨-, same⟩ := List.append_inj' parts rfl
  rw [record.relative]
  apply fileName?_of_components first
  rw [record.written.components_eq, components, same]

/-- **An entry that completes its anchor** opens when its path can be used and no directory is
there. -/
theorem IsRecordOf.opens_iff (record : IsRecordOf d anchors p way f segments) (sound : d.IsSound)
    (absolute : p.isAbsolute = true) (anchors_absolute : ∀ a ∈ anchors, a.isAbsolute = true)
    (found : IsFoundAt d p way) (some_segments : segments ≠ []) :
    (f.Opens d ↔ f.relative.text ≠ [] ∧ Disk.isUsable f.fullPath = true ∧
      d.isDirectory f.fullPath = false) ∧
    (d.isDirectory f.fullPath = true → Disk.isUsable (p.joinNames way) = false) := by
  obtain ⟨q, node, name, spells⟩ := exists_spells sound absolute found
  obtain ⟨anchor_absolute, -⟩ := anchorOf_spec absolute anchors_absolute found.hasAnchor
  have relative := record.written.isAbsolute_eq
  have full : f.fullPath = (anchorOf d anchors p).join (ofNames segments) := by
    rw [SchemaFile.fullPath, record.root, record.relative]
  have full_absolute : f.fullPath.isAbsolute = true := by
    rw [full]
    exact isAbsolute_join_of_isAbsolute anchor_absolute _
  have same : q.Same f.fullPath := by
    rw [Same, spells.components, record.components_eq absolute anchors_absolute found.hasAnchor]
  have full_ends : f.fullPath.EndsInName := by
    rw [full]
    exact endsInName_join relative (record.written.endsInName some_segments)
  have leads : Disk.isUsable f.fullPath = true →
      d.locate f.fullPath = .ok (.location (q.target d.cwd)) := by
    intro usable
    rw [Disk.locate_of_isAbsolute d full_absolute usable
      (nul_not_mem_of_same spells.absolute full_absolute same spells.plain),
      ← Disk.walk_congr d.tree spells.absolute full_absolute same spells.ends full_ends,
      spells.walked]
    rfl
  obtain ⟨before, components⟩ := spells.last
  have last : (q.target d.cwd).getLast? = some name := by
    rw [target, components, steps_append]
    exact List.getLast?_concat
  have named := record.fileName?_eq some_segments (spells.components ▸ components)
  have some_text : f.relative.text ≠ [] := by
    intro none
    have empty : f.relative = ⟨[]⟩ := congrArg Path.mk none
    rw [empty] at named
    cases named
  refine ⟨SchemaFile.opens_iff leads spells.at_target last spells.schema some_text named,
    fun dir => spells.too_long ?_⟩
  have there := Disk.directory_at_target full_absolute dir
  rw [target, ← same, ← target, spells.at_target] at there
  exact Option.some.inj there

/-- Where nothing is left to join, the path is that of its anchor and leads to a file. -/
theorem IsRecordOf.anchor_of_nil (record : IsRecordOf d anchors p way f [])
    (absolute : p.isAbsolute = true) (anchors_absolute : ∀ a ∈ anchors, a.isAbsolute = true)
    (found : IsFoundAt d p way) :
    f.root ∈ anchors ∧ ∃ c, d.tree.node? (f.root.target d.cwd) = some (.file c) := by
  obtain ⟨-, contained⟩ := anchorOf_spec (d := d) absolute anchors_absolute found.hasAnchor
  have parts := record.parts
  rw [show componentsOf [] = [] from rfl, List.append_nil] at parts
  have way_nil : way = [] := by
    have shorter := contained.length_le
    rw [parts, List.length_append, List.length_map] at shorter
    exact List.length_eq_zero_iff.mp (by omega)
  subst way_nil
  rw [List.map_nil, List.append_nil] at parts
  obtain ⟨-, file, schema⟩ := found.resolve_left fun h => h.2.2 rfl
  obtain ⟨loc, c, led, at_loc⟩ := Disk.isFile_iff.mp file
  rw [record.root]
  refine ⟨?_, c, ?_⟩
  · have notDirectory : ¬d.isDirectory p = true := by
      rw [Disk.isDirectory, Disk.node_of_locate led at_loc]
      exact Bool.false_ne_true
    obtain ⟨before, n, components, -⟩ := exists_components_of_isSchemaFile schema
    rw [anchorOf] at parts ⊢
    split
    · next a deepest => exact (List.mem_filter.mp (deepest?_spec deepest).1).1
    · next none =>
      -- The parent of a path is another one.
      rw [none] at parts
      obtain ⟨parent, up⟩ := exists_parent?_of_name (by rw [components, List.getLast?_concat])
      rw [directoryOf?, if_neg notDirectory, up, Option.getD_some,
        (parent?_spec absolute up).2] at parts
      rw [components, List.dropLast_concat] at parts
      exact absurd parts (by simp)
  · rw [target, parts, ← target, Disk.target_of_locate led, at_loc]

end Paths

/-! ## All entries -/

/-- An entry that is recorded under a source which is a file itself. -/
def IsSourceItself (d : Disk) (found : Discovery) (f : SchemaFile) : Prop :=
  ∃ source ∈ found.manifest.effectiveSources, f.root = sourceDirectory found source ∧
    ∃ c, d.tree.node? (sourceLocation d found source) = some (.file c)

section

variable {d : Disk} {paths : List Path} {found : Discovery}

/-- Of the anchors, only a source can be a file. -/
theorem isSourceItself_of_mem_anchorsOf (sound : d.IsSound) (there : d.removed = 0)
    (project : found.hasManifest = true → IsProject d paths found) {f : SchemaFile}
    (listed : f.root ∈ anchorsOf d found)
    (file : ∃ c, d.tree.node? (f.root.target d.cwd) = some (.file c)) :
    IsSourceItself d found f := by
  obtain ⟨c, at_root⟩ := file
  by_cases manifest : found.hasManifest = true
  · rcases (mem_anchorsOf_iff manifest).mp listed with ⟨source, hs, eq⟩ | root
    · exact ⟨source, hs, eq.symm, c, by rw [sourceLocation, eq, at_root]⟩
    · have absolute := (project manifest).isAbsolute_root
      obtain ⟨loc, c', led, -⟩ := Disk.isFile_iff.mp (project manifest).isFile
      rw [manifestAt, ← ofNames_singleton] at led
      obtain ⟨base, root_led, dir, -⟩ := Disk.exists_of_locate_join absolute (by decide) led
      rw [root, Disk.target_of_locate root_led, dir] at at_root
      cases at_root
  · rw [anchorsOf, if_neg manifest] at listed
    have entered := sound.entered there
    have names : ∀ n ∈ d.cwd, IsName n := FileTree.names_of_node? entered
    have target : (absolute d.cwd).target d.cwd = d.cwd := by
      rw [Path.target, components_absolute names]
      change steps [] (d.cwd.map .name) = _
      rw [steps_names, List.nil_append]
    rw [List.mem_singleton.mp listed, target, entered] at at_root
    cases at_root

end

/-- **Which entries can be opened.** In a project, an entry leads to a schema file that has the name
of its message exactly when something is left to join and the path is not too long. The same holds
at given paths, save that a directory may be listed by a path that is too long and recorded by one
that is not. Nothing is left to join only under a source that is a file itself. -/
theorem files_open {d : Disk} (sound : d.IsSound) :
    (∀ root found, ofProject d root = .ok found → ∀ f ∈ found.files,
      (f.Opens d ↔ f.relative.text ≠ [] ∧ Disk.isUsable f.fullPath = true) ∧
      (f.relative.text = [] → IsSourceItself d found f)) ∧
    ∀ paths found, ofPaths d paths = .ok found → ∀ f ∈ found.files,
      (f.Opens d ↔ f.relative.text ≠ [] ∧ Disk.isUsable f.fullPath = true ∧
        d.isDirectory f.fullPath = false) ∧
      (f.relative.text = [] → IsSourceItself d found f) ∧
      (d.isDirectory f.fullPath = true → ∃ p ∈ paths, ∃ way : Location,
        f.target d.cwd = givenLocation d p ++ way ∧
          Disk.isUsable ((given d p).joinNames way) = false) := by
  constructor
  · intro root found h f hf
    obtain ⟨-, files⟩ := ofProject_eq_ok h
    rw [files] at hf
    obtain ⟨_, listed, hf⟩ := List.mem_flatten.mp hf
    obtain ⟨source, hs, rfl⟩ := List.mem_map.mp listed
    obtain ⟨opens, none⟩ := opens_of_mem_directory sound hf
    exact ⟨opens, fun empty => ⟨source, hs, none empty⟩⟩
  · intro paths found h f hf
    have there : d.removed = 0 := by
      by_contra gone
      rw [ofPaths, Disk.cwdPath?, if_neg gone] at h
      cases h
    obtain ⟨files, project⟩ := ofPaths_eq_ok h
    have anchors_absolute : ∀ a ∈ anchorsOf d found, a.isAbsolute = true :=
      fun _ => isAbsolute_of_mem_anchorsOf project
    rw [files] at hf
    obtain ⟨_, listed, hf⟩ := List.mem_flatten.mp hf
    obtain ⟨p, hp, rfl⟩ := List.mem_map.mp listed
    have absolute := isAbsolute_given d p
    obtain ⟨way, segments, isFound, record⟩ := exists_isFoundAt absolute anchors_absolute hf
    have target := record.target_eq absolute anchors_absolute isFound.hasAnchor d.cwd
    by_cases none : segments = []
    · subst none
      have empty : f.relative.text = [] := congrArg Path.text record.relative
      obtain ⟨anchor, file⟩ := record.anchor_of_nil absolute anchors_absolute isFound
      refine ⟨iff_of_false (fun h => h.named empty) fun h => h.1 empty, fun _ => ?_, ?_⟩
      · exact isSourceItself_of_mem_anchorsOf sound there project anchor file
      · intro dir
        -- The anchor is a file, and with nothing joined to it the path leads to it.
        obtain ⟨c, at_root⟩ := file
        have there := Disk.directory_at_target (p := f.fullPath)
          (isAbsolute_join_of_isAbsolute (anchors_absolute _ anchor) _) dir
        have root_target : f.fullPath.target d.cwd = f.root.target d.cwd := by
          rw [SchemaFile.fullPath, record.relative, target_join _ rfl]
          rfl
        rw [root_target, at_root] at there
        cases there
    · obtain ⟨opens, long⟩ := record.opens_iff sound absolute anchors_absolute isFound none
      have some_text : f.relative.text ≠ [] := by
        rw [record.relative]
        intro empty
        have cut := record.written.segmentsOf_eq none
        rw [empty] at cut
        have first := record.written.first [] (by rw [← cut]; rfl)
        cases first
      exact ⟨opens, fun empty => absurd empty some_text, fun dir => ⟨p, hp, way, target, long dir⟩⟩

theorem msg_opens :
    (twoDirectories "sources: [msg, srv]").IsSound ∧
      ∃ found, ofPaths (twoDirectories "sources: [msg, srv]") [⟨"msg"⟩] = .ok found ∧
        ∃ f ∈ found.files, f.Opens (twoDirectories "sources: [msg, srv]") := by
  have sound : (twoDirectories "sources: [msg, srv]").IsSound := by decide +kernel
  obtain ⟨found, h, f, hf, opens⟩ : ∃ found,
      ofPaths (twoDirectories "sources: [msg, srv]") [⟨"msg"⟩] = .ok found ∧
      ∃ f ∈ found.files, f.relative.text ≠ [] ∧ Disk.isUsable f.fullPath = true ∧
        (twoDirectories "sources: [msg, srv]").isDirectory f.fullPath = false :=
    exists_ok_of_any (by decide +kernel)
  exact ⟨sound, found, h, f, hf, ((files_open sound).2 _ found h f hf).1.mpr opens⟩

/-- A source that is a schema file itself is recorded with nothing left to join, and its path with a
slash behind it leads nowhere. -/
theorem source_itself_not_opened :
    (twoDirectories "sources: [msg/A.msg]").IsSound ∧
      ∃ found, ofProject (twoDirectories "sources: [msg/A.msg]") ⟨"."⟩ = .ok found ∧
        ∃ f ∈ found.files, ¬f.Opens (twoDirectories "sources: [msg/A.msg]") ∧
          f.relative.text = [] ∧
          (twoDirectories "sources: [msg/A.msg]").readText f.fullPath = .error .notDirectory := by
  obtain ⟨found, h, f, hf, empty, unread⟩ : ∃ found,
      ofProject (twoDirectories "sources: [msg/A.msg]") ⟨"."⟩ = .ok found ∧
      ∃ f ∈ found.files, f.relative.text = [] ∧
        (twoDirectories "sources: [msg/A.msg]").readText f.fullPath = .error .notDirectory :=
    exists_ok_of_any (by decide +kernel)
  exact ⟨by decide +kernel, found, h, f, hf, fun opens => opens.named empty, empty, unread⟩

end Discovery

end MessageDocs
