import Mathlib.Data.List.Find
import MessageDocs.Proofs.Discovery.Opening
import MessageDocs.Proofs.Discovery.Project
import MessageDocs.Proofs.Disk.Growth

/-! # Discovery on a disk that has gained files

What is discovered depends on the schema files and the manifests of a disk. So files with other
names change nothing about it, wherever they are written, as long as no path leads up and none of
the directories made for them is taken for a schema file or a manifest.

* `Scan.schemasBelow_congr`: what is found in a directory.
* `Discovery.ofProject_congr` and `Discovery.exists_ofPaths_congr`: what is discovered.
* `Discovery.readText_congr`: what is read from the files that have been discovered.
-/

set_option autoImplicit false

namespace MessageDocs

open MessageDocs.Path

namespace Path

theorem target_joinNames (p : Path) {names : List Text} (h : ∀ n ∈ names, IsName n)
    (cwd : Location) : (p.joinNames names).target cwd = p.target cwd ++ names := by
  induction names generalizing p with
  | nil => exact (List.append_nil _).symm
  | cons n names ih =>
    obtain ⟨name, rest⟩ := List.forall_mem_cons.mp h
    have step : (p.join ⟨n⟩).target cwd = p.target cwd ++ [n] := by
      rw [target_join p (isAbsolute_name name), ← ofNames_singleton,
        target_ofNames (by simpa using name)]
    change ((p.join ⟨n⟩).joinNames names).target cwd = _
    rw [ih (p.join ⟨n⟩) rest, step, List.append_assoc, List.singleton_append]

theorem exists_last_of_isSchemaFile {p : Path} (h : Scan.isSchemaFile p = true) (cwd : Location) :
    ∃ name, (p.target cwd).getLast? = some name ∧
      (cutExtension name).2 = some Scan.schemaExtension := by
  obtain ⟨before, name, components, schema⟩ := exists_components_of_isSchemaFile h
  refine ⟨name, ?_, schema⟩
  rw [target, components, steps_append]
  exact List.getLast?_concat

end Path

/-- Names of files that are neither schemas nor manifests. -/
structure AreForeign (names : List Text) : Prop where
  schema : ∀ n ∈ names, (cutExtension n).2 ≠ some Scan.schemaExtension
  manifest : Manifest.fileName ∉ names

namespace AreForeign

variable {names : List Text} (foreign : AreForeign names) {loc : Location}

include foreign

theorem other_of_schema
    (h : ∃ name, loc.getLast? = some name ∧ (cutExtension name).2 = some Scan.schemaExtension) :
    ∀ n ∈ names, loc.getLast? ≠ some n := by
  obtain ⟨name, last, schema⟩ := h
  intro n hn last'
  rw [last] at last'
  obtain rfl := Option.some.inj last'
  exact foreign.schema name hn schema

theorem other_of_manifest (h : loc.getLast? = some Manifest.fileName) :
    ∀ n ∈ names, loc.getLast? ≠ some n := by
  intro n hn last
  rw [h] at last
  obtain rfl := Option.some.inj last
  exact foreign.manifest hn

end AreForeign

/-- Whether none of the directories on the way to a place that are still to be made will be taken
for a schema file by a scan of a path: the paths of those with such a name can be used. -/
def LeavesRoom (d : Disk) (output : Location) (p : Path) : Prop :=
  ∀ way : Location, d.tree.node? (p.target d.cwd ++ way) = none →
    p.target d.cwd ++ way <+: output → Scan.isSchemaFile (p.joinNames way) = true →
      Scan.isReached p way = true → Disk.isUsable (p.joinNames way) = true

/-- There is room where the way to the place goes through no name of a schema. -/
theorem leavesRoom_of_names {d : Disk} {output : Location} {p : Path}
    (h : ∀ n ∈ output, IsName n ∧ (cutExtension n).2 ≠ some Scan.schemaExtension) :
    LeavesRoom d output p := by
  intro way _ above schema
  have names : ∀ n ∈ way, IsName n := fun n hn =>
    (h n (above.subset (List.mem_append_right _ hn))).1
  obtain ⟨name, last, extension⟩ := exists_last_of_isSchemaFile schema d.cwd
  rw [target_joinNames p names] at last
  exact absurd extension (h name (above.subset (List.mem_of_getLast? last))).2

namespace Scan

/-! ## Scans -/

theorem mem_schemasBelow_iff_node? {d : Disk} {root : Path} {way : Location} :
    way ∈ schemasBelow d root ↔ d.locate root = .ok (.location (root.target d.cwd)) ∧
      ∃ n, d.tree.node? (root.target d.cwd ++ way) = some n ∧
        isSchemaFile (root.joinNames way) = true ∧ isReached root way = true ∧
          countsAsFile (root.joinNames way) n = true := by
  constructor
  · intro h
    obtain ⟨base, -, led, -⟩ := mem_schemasBelow h
    obtain ⟨n, below, taken⟩ := (mem_schemasBelow_iff led).mp h
    rw [Disk.target_of_locate led]
    exact ⟨led, n, FileTree.node?_of_mem (FileTree.mem_below_iff.mp below), taken⟩
  · rintro ⟨led, n, node, taken⟩
    refine (mem_schemasBelow_iff led).mpr ⟨n, FileTree.mem_below_iff.mpr ?_, taken⟩
    rcases FileTree.mem_of_node? node with ⟨top, -⟩ | listed
    · -- Nothing leads to the root of the tree that has the name of a schema.
      obtain ⟨at_top, rfl⟩ := List.append_eq_nil_iff.mp top
      obtain ⟨name, last, -⟩ := exists_last_of_isSchemaFile (p := root) taken.1 d.cwd
      rw [at_top] at last
      cases last
    · exact listed

theorem exists_last_of_mem_schemasBelow {d : Disk} {root : Path} {way : Location}
    (h : way ∈ schemasBelow d root) :
    ∃ name, (root.target d.cwd ++ way).getLast? = some name ∧
      (cutExtension name).2 = some schemaExtension := by
  obtain ⟨-, n, -, schema, -⟩ := mem_schemasBelow_iff_node?.mp h
  rw [← target_joinNames root (isName_of_mem_schemasBelow h)]
  exact exists_last_of_isSchemaFile schema d.cwd

section

variable {d d' : Disk} {output : Location} {names : List Text}
  (gains : d.GainsFiles d' output names) (foreign : AreForeign names) (entered : d.removed = 0)
  {p : Path} (descends : p.Descends) (room : LeavesRoom d output p)

include gains foreign entered descends

theorem mem_of_mem_schemasBelow {way : Location} (h : way ∈ schemasBelow d p) :
    way ∈ schemasBelow d' p := by
  obtain ⟨led, n, node, taken⟩ := mem_schemasBelow_iff_node?.mp h
  have node' := gains.node?_eq (foreign.other_of_schema (exists_last_of_mem_schemasBelow h)) node
  rw [mem_schemasBelow_iff_node?, gains.cwd, (gains.node_eq entered descends node node').1]
  exact ⟨led, n, node', taken⟩

include room

theorem mem_schemasBelow_of_mem {way : Location} (h : way ∈ schemasBelow d' p) :
    way ∈ schemasBelow d p := by
  have other := foreign.other_of_schema (exists_last_of_mem_schemasBelow h)
  obtain ⟨led, n, node', schema, reached, counts⟩ := mem_schemasBelow_iff_node?.mp h
  rw [gains.cwd] at led node' other
  have node : d.tree.node? (p.target d.cwd ++ way) = some n := by
    rcases gains.nodes (p.target d.cwd ++ way) with same | ⟨missing, made, above⟩ | ⟨-, -, new⟩
    · rw [← same, node']
    · rw [made] at node'
      obtain rfl := Option.some.inj node'
      rw [countsAsFile, room way missing above schema reached] at counts
      cases counts
    · obtain ⟨name, hn, here⟩ := new
      rw [here] at other
      exact absurd List.getLast?_concat (other name hn)
  rw [mem_schemasBelow_iff_node?, ← (gains.node_eq entered descends node node').1]
  exact ⟨led, n, node, schema, reached, counts⟩

/-- **What is found in a directory** is what was found before. -/
theorem schemasBelow_congr : schemasBelow d' p = schemasBelow d p := by
  apply eq_of_ascending (schemasBelow_ascending d' p) (schemasBelow_ascending d p)
  intro way
  exact ⟨mem_schemasBelow_of_mem gains foreign entered descends room,
    mem_of_mem_schemasBelow gains foreign entered descends⟩

theorem directory_congr (m : Manifest) : directory d' m p = directory d m p := by
  rw [directory, directory, schemasBelow_congr gains foreign entered descends room]

end

end Scan

namespace Discovery

theorem other_manifestAt {names : List Text} (foreign : AreForeign names) (p : Path)
    (cwd : Location) : ∀ n ∈ names, ((manifestAt p).target cwd).getLast? ≠ some n := by
  apply foreign.other_of_manifest
  rw [target_manifestAt, List.getLast?_concat]

theorem recordOf_congr {d d' : Disk} (anchors : List Path) {p : Path}
    (same : d'.isDirectory p = d.isDirectory p) :
    anchorOf d' anchors p = anchorOf d anchors p ∧
      insideOf d' anchors p = insideOf d anchors p ∧
      recordOf d' anchors p = recordOf d anchors p := by
  have anchor : anchorOf d' anchors p = anchorOf d anchors p := by
    rw [anchorOf, anchorOf, directoryOf?, directoryOf?, same]
  have inside : insideOf d' anchors p = insideOf d anchors p := by
    rw [insideOf, insideOf, anchor]
  refine ⟨anchor, inside, ?_⟩
  funext way
  rw [recordOf, recordOf, anchor, inside]

section Gains

variable {d d' : Disk} {output : Location} {names : List Text}
  (gains : d.GainsFiles d' output names) (foreign : AreForeign names) (entered : d.removed = 0)

include gains foreign entered

/-! ## Manifests -/

theorem loadManifest_congr {p : Path} (descends : p.Descends)
    (there : d.contains (manifestAt p) = true) :
    loadManifest d' (manifestAt p) = loadManifest d (manifestAt p) := by
  cases node : d.node (manifestAt p) with
  | error e =>
    rw [Disk.contains, node] at there
    cases there
  | ok n =>
    have same := gains.node_eq_of_other entered (descends_manifestAt descends)
      (other_manifestAt foreign p d.cwd) (Disk.node_at_target entered node).2
    rw [loadManifest, loadManifest, Disk.readText, Disk.readText, same]

/-- **The nearest manifest** is the one that was found before. -/
theorem projectRoot?_congr {p : Path} (absolute : p.isAbsolute = true) (descends : p.Descends) :
    projectRoot? d' p = projectRoot? d p := by
  apply List.find?_congr
  intro dir above
  exact gains.isFile_eq entered (descends_manifestAt (descends.of_mem_ancestors absolute above))
    (other_manifestAt foreign dir d.cwd)

/-! ## Files at a path -/

/-- **The files at a path** are those that were found before. -/
theorem filesAt_congr (m : Manifest) (anchors : List Path) {p : Path} (descends : p.Descends)
    (room : LeavesRoom d output p) : filesAt d' m anchors p = filesAt d m anchors p := by
  have schemas := Scan.schemasBelow_congr gains foreign entered descends room
  by_cases dir' : d'.isDirectory p = true
  · by_cases dir : d.isDirectory p = true
    · obtain ⟨-, -, record⟩ := recordOf_congr anchors (dir'.trans dir.symm)
      rw [filesAt_directory dir', filesAt_directory dir, schemas, record]
    · -- The path leads to a directory that has been made, in which nothing was before.
      have file : d.isFile p = false := by
        rw [Bool.eq_false_iff, ne_eq, Disk.isFile_iff]
        rintro ⟨loc, c, led, file⟩
        have made := (Disk.node_at_target (gains.removed.trans entered)
          (Disk.isDirectory_iff.mp dir')).2
        rw [gains.cwd, Disk.target_of_locate led] at made
        rcases gains.nodes loc with same | ⟨missing, -⟩ | ⟨-, ⟨c', page⟩, -⟩
        · rw [same, file] at made
          cases made
        · rw [file] at missing
          cases missing
        · rw [page] at made
          cases made
      have nothing := Scan.schemasBelow_eq_nil dir file
      rw [filesAt_directory dir', filesAt_file dir, schemas, nothing, file]
      rfl
  · have dir : ¬d.isDirectory p = true := fun dir =>
      dir' (gains.isDirectory_of_isDirectory entered descends dir)
    have same : d'.isDirectory p = d.isDirectory p := by
      rw [Bool.eq_false_iff.mpr dir', Bool.eq_false_iff.mpr dir]
    obtain ⟨anchor, inside, -⟩ := recordOf_congr anchors same
    have file : (d'.isFile p && Scan.isSchemaFile p) = (d.isFile p && Scan.isSchemaFile p) := by
      cases schema : Scan.isSchemaFile p with
      | false => rw [Bool.and_false, Bool.and_false]
      | true =>
        rw [gains.isFile_eq entered descends
          (foreign.other_of_schema (exists_last_of_isSchemaFile schema d.cwd))]
    rw [filesAt_file dir', filesAt_file dir, inside, anchor, file]

/-! ## What is discovered -/

/-- **A project** is found as it was before, unless something with the name of a manifest has come
to its root. -/
theorem ofProject_congr {root : Path} {found : Discovery} (h : ofProject d root = .ok found)
    (descends : root.Descends)
    (sources : ∀ s ∈ found.manifest.effectiveSources, (⟨s⟩ : Path).Descends)
    (room : ∀ s ∈ found.manifest.effectiveSources, LeavesRoom d output (sourceDirectory found s))
    (same : d'.contains (manifestAt root) = d.contains (manifestAt root)) :
    ofProject d' root = .ok found := by
  obtain ⟨at_root, -⟩ := ofProject_eq_ok h
  have scans : Scan.sources d' found.manifest root found.manifest.effectiveSources =
      Scan.sources d found.manifest root found.manifest.effectiveSources := by
    rw [Scan.sources, Scan.sources]
    refine congrArg List.flatten (List.map_congr_left fun s hs => ?_)
    have here := room s hs
    rw [sourceDirectory, at_root] at here
    exact Scan.directory_congr gains foreign entered (descends.join (sources s hs)) here _
  by_cases there : d.contains (manifestAt root) = true
  · rw [ofProject_of_contains there] at h
    rw [ofProject_of_contains (same.trans there),
      loadManifest_congr gains foreign entered descends there]
    cases loads : loadManifest d (manifestAt root) with
    | error e =>
      rw [loads] at h
      cases h
    | ok m =>
      rw [loads] at h
      obtain rfl := Except.ok.inj h
      exact congrArg (fun files => Except.ok { scanned d root m with files := files }) scans
  · rw [ofProject, if_neg there] at h
    rw [ofProject, same, if_neg there]
    obtain rfl := Except.ok.inj h
    dsimp only at scans ⊢
    rw [scans]

/-- **What is found at paths** is what was found before. Only the root of what has no manifest may
be another one, the directory at the first path when it has been made. -/
theorem exists_ofPaths_congr {paths : List Path} {found : Discovery}
    (h : ofPaths d paths = .ok found) (descends : ∀ p ∈ paths, (given d p).Descends)
    (room : ∀ p ∈ paths, LeavesRoom d output (given d p)) :
    ∃ root, ofPaths d' paths = .ok { found with root := root } ∧
      (found.hasManifest = true → root = found.root) := by
  have files : ∀ m anchors, (paths.map (given d)).map (filesAt d' m anchors) =
      (paths.map (given d)).map (filesAt d m anchors) := by
    intro m anchors
    rw [List.map_map, List.map_map]
    apply List.map_congr_left
    intro p hp
    exact filesAt_congr gains foreign entered m anchors (descends p hp) (room p hp)
  have nearest : (paths.map (given d)).head?.bind (projectRoot? d') =
      (paths.map (given d)).head?.bind (projectRoot? d) := by
    cases paths with
    | nil => rfl
    | cons p rest =>
      exact projectRoot?_congr gains foreign entered (isAbsolute_given d p)
        (descends p List.mem_cons_self)
  rw [ofPaths_eq_ofAbsolute entered, ofAbsolute] at h
  have same_given : given d' = given d := by
    funext p
    rw [given, given, gains.cwd]
  rw [ofPaths_eq_ofAbsolute (gains.removed.trans entered), same_given, gains.cwd, ofAbsolute,
    nearest]
  cases first : (paths.map (given d)).head?.bind (projectRoot? d) with
  | none =>
    rw [first] at h
    obtain rfl := Except.ok.inj h
    dsimp only
    rw [files]
    exact ⟨_, rfl, fun manifest => absurd manifest Bool.false_ne_true⟩
  | some root =>
    rw [first] at h
    obtain ⟨_, listed, asked⟩ := Option.bind_eq_some_iff.mp first
    obtain ⟨p, hp, rfl⟩ := List.mem_map.mp (List.mem_of_head? listed)
    obtain ⟨above, there⟩ := projectRoot?_spec asked
    have root_descends := (descends p hp).of_mem_ancestors (isAbsolute_given d p) above
    dsimp only at h ⊢
    rw [loadManifest_congr gains foreign entered root_descends (Disk.contains_of_isFile there)]
    cases loads : loadManifest d (manifestAt root) with
    | error e =>
      rw [loads] at h
      cases h
    | ok m =>
      rw [loads] at h
      obtain rfl := Except.ok.inj h
      dsimp only
      rw [files]
      exact ⟨root, rfl, fun _ => rfl⟩

end Gains

/-! ## Reading what is discovered -/

/-- A file that has been discovered: it is there under the name of a schema, by a path that never
leads up. -/
structure IsListed (d : Disk) (f : SchemaFile) : Prop where
  descends : f.fullPath.Descends
  node : ∃ n, d.tree.node? (f.target d.cwd) = some n
  last : ∃ name, (f.target d.cwd).getLast? = some name ∧
    (cutExtension name).2 = some Scan.schemaExtension

theorem isListed_of_mem_directory {d : Disk} {m : Manifest} {p : Path} (descends : p.Descends)
    {f : SchemaFile} (h : f ∈ Scan.directory d m p) : IsListed d f := by
  obtain ⟨way, hw, rfl⟩ := Scan.mem_directory h
  have names := Scan.isName_of_mem_schemasBelow hw
  obtain ⟨-, n, node, -⟩ := Scan.mem_schemasBelow_iff_node?.mp hw
  refine ⟨descends.join (descends_ofNames names), ⟨n, ?_⟩, ?_⟩
  · rw [Scan.target_way hw, node]
  · rw [Scan.target_way hw]
    exact Scan.exists_last_of_mem_schemasBelow hw

theorem isListed_of_mem_filesAt {d : Disk} {m : Manifest} {anchors : List Path} {p : Path}
    (absolute : p.isAbsolute = true) (anchors_absolute : ∀ a ∈ anchors, a.isAbsolute = true)
    (descends : p.Descends) {f : SchemaFile} (h : f ∈ filesAt d m anchors p) : IsListed d f := by
  obtain ⟨way, segments, isFound, record⟩ := exists_isFoundAt absolute anchors_absolute h
  have anchor := isFound.hasAnchor
  have components := record.components_eq absolute anchors_absolute anchor
  have target := record.target_eq absolute anchors_absolute anchor d.cwd
  have f_descends : f.fullPath.Descends := by
    rw [Descends, components, List.mem_append, not_or]
    exact ⟨descends, by simp⟩
  rcases isFound with ⟨-, hw, -⟩ | ⟨rfl, file, schema⟩
  · obtain ⟨-, n, node, -⟩ := Scan.mem_schemasBelow_iff_node?.mp hw
    rw [← target] at node
    refine ⟨f_descends, ⟨n, node⟩, ?_⟩
    rw [target]
    exact Scan.exists_last_of_mem_schemasBelow hw
  · obtain ⟨loc, c, led, at_loc⟩ := Disk.isFile_iff.mp file
    rw [List.append_nil] at target
    refine ⟨f_descends, ⟨.file c, ?_⟩, ?_⟩
    · rw [target, Disk.target_of_locate led, at_loc]
    · rw [target]
      exact exists_last_of_isSchemaFile schema d.cwd

/-- **What is read** from a file that has been discovered is what was read before. -/
theorem readText_congr {d d' : Disk} {output : Location} {names : List Text}
    (gains : d.GainsFiles d' output names) (foreign : AreForeign names) (entered : d.removed = 0)
    {f : SchemaFile} (listed : IsListed d f) :
    d'.readText f.fullPath = d.readText f.fullPath := by
  obtain ⟨n, node⟩ := listed.node
  rw [Disk.readText, Disk.readText, gains.node_eq_of_other entered listed.descends
    (foreign.other_of_schema listed.last) node]

end Discovery

end MessageDocs
