import Mathlib.Data.List.Nodup
import MessageDocs.Discovery.Scan
import MessageDocs.Proofs.Disk.Target
import MessageDocs.Proofs.FileTree
import MessageDocs.Proofs.Sorting

/-! # What a scan lists

A scan follows the ways from a directory to the files under it. No two ways lead to the same
place, so a scan lists no file twice.

* `timesListed`: how many of some files are at a location.
* `ListsOnce`: files under a location, of which no two have the same target.
* `Scan.directory_listsOnce`: what a scan of one directory lists.
-/

set_option autoImplicit false

namespace MessageDocs

/-! ## What lies under a location -/

namespace FileTree

variable {t : FileTree} {loc way : Location} {n : Node}

theorem mem_below_iff : (way, n) ∈ t.below loc ↔ (loc ++ way, n) ∈ t.entries := by
  rw [below, List.mem_filterMap]
  constructor
  · rintro ⟨e, listed, found⟩
    obtain ⟨rest, under, same⟩ := Option.map_eq_some_iff.mp found
    cases same
    rw [List.isPrefixOf?_eq_some_iff_append_eq.mp under]
    exact listed
  · intro listed
    refine ⟨_, listed, ?_⟩
    rw [List.isPrefixOf?_eq_some_iff_append_eq.mpr rfl]
    rfl

theorem nodup_below (t : FileTree) (loc : Location) : ((t.below loc).map Prod.fst).Nodup := by
  have ways : (t.below loc).map Prod.fst =
      (t.entries.map Prod.fst).filterMap loc.isPrefixOf? := by
    rw [below, List.map_filterMap, List.filterMap_map]
    apply List.filterMap_congr
    intro e _
    rw [Option.map_map]
    exact Option.map_id'
  rw [ways]
  refine List.Nodup.filterMap ?_ t.nodup
  intro a a' way h h'
  exact (List.isPrefixOf?_eq_some_iff_append_eq.mp h).symm.trans
    (List.isPrefixOf?_eq_some_iff_append_eq.mp h')

theorem isName_of_mem_below (h : (way, n) ∈ t.below loc) : ∀ name ∈ way, IsName name :=
  fun name hn => t.named _ (mem_below_iff.mp h) name (List.mem_append_right _ hn)

theorem mem_below_iff_node? (some_way : way ≠ []) :
    (way, n) ∈ t.below loc ↔ t.node? (loc ++ way) = some n := by
  rw [mem_below_iff]
  refine ⟨node?_of_mem, fun h => ?_⟩
  rcases mem_of_node? h with ⟨root, -⟩ | listed
  · exact absurd (List.append_eq_nil_iff.mp root).2 some_way
  · exact listed

theorem isName_of_node? (h : t.node? (loc ++ way) = some n) : ∀ name ∈ way, IsName name := by
  by_cases here : way = []
  · rw [here]
    exact fun _ hn => nomatch hn
  · exact isName_of_mem_below ((mem_below_iff_node? here).mpr h)

theorem names_of_node? (h : t.node? loc = some n) : ∀ name ∈ loc, IsName name :=
  @isName_of_node? t [] loc n h

theorem below_eq_nil (h : t.node? loc = none) : t.below loc = [] := by
  rw [List.eq_nil_iff_forall_not_mem]
  rintro ⟨way, n⟩ listed
  have at_way := node?_of_mem (mem_below_iff.mp listed)
  by_cases here : way = []
  · rw [here, List.append_nil, h] at at_way
    cases at_way
  · rw [directory_of_node? here at_way] at h
    cases h

end FileTree

namespace Path

theorem exists_components_of_isSchemaFile {p : Path} (h : Scan.isSchemaFile p = true) :
    ∃ before n, p.components = before ++ [.name n] ∧
      (cutExtension n).2 = some Scan.schemaExtension := by
  have schema : p.extension? = some Scan.schemaExtension := by simpa [Scan.isSchemaFile] using h
  obtain ⟨n, named, extension⟩ := Option.bind_eq_some_iff.mp schema
  unfold fileName? at named
  split at named
  · next n' last =>
    cases named
    obtain ⟨before, eq⟩ := List.getLast?_eq_some_iff.mp last
    exact ⟨before, n, eq, extension⟩
  · cases named

end Path

/-! ## Listing files -/

/-- Whether the path of a file leads to a location. -/
def SchemaFile.IsAt (d : Disk) (loc : Location) (f : SchemaFile) : Prop :=
  d.locate f.fullPath = .ok (.location loc)

instance (d : Disk) (loc : Location) (f : SchemaFile) : Decidable (f.IsAt d loc) :=
  inferInstanceAs (Decidable (_ = _))

/-- How many of some files are at a location. -/
def timesListed (d : Disk) (files : List SchemaFile) (loc : Location) : Nat :=
  files.countP fun f => decide (f.IsAt d loc)

/-- Where the path of a file leads from a working directory. -/
def SchemaFile.target (cwd : Location) (f : SchemaFile) : Location :=
  f.fullPath.target cwd

theorem SchemaFile.IsAt.target_eq {d : Disk} {loc : Location} {f : SchemaFile}
    (h : f.IsAt d loc) : f.target d.cwd = loc :=
  Disk.target_of_locate h

/-- Files under a location, no two of which have the same target. -/
structure ListsOnce (cwd start : Location) (files : List SchemaFile) : Prop where
  nodup : (files.map (·.target cwd)).Nodup
  under : ∀ f ∈ files, start <+: f.target cwd

namespace ListsOnce

variable {cwd start : Location}

theorem nil (cwd start : Location) : ListsOnce cwd start [] :=
  ⟨List.nodup_nil, fun _ hf => nomatch hf⟩

theorem singleton {f : SchemaFile} (h : start <+: f.target cwd) : ListsOnce cwd start [f] := by
  refine ⟨List.nodup_singleton _, ?_⟩
  intro g hg
  rw [List.mem_singleton.mp hg]
  exact h

/-- Files that are recorded along different ways are different files. -/
theorem of_ways {ways : List Location} {record : Location → Option SchemaFile}
    (nodup : ways.Nodup)
    (leads : ∀ way ∈ ways, ∀ f, record way = some f → f.target cwd = start ++ way) :
    ListsOnce cwd start (ways.filterMap record) where
  nodup := by
    rw [List.Nodup, List.pairwise_map, List.pairwise_filterMap]
    apply nodup.imp_of_mem
    intro way way' hw hw' apart f hf f' hf' same
    rw [leads way hw f hf, leads way' hw' f' hf'] at same
    exact apart (List.append_cancel_left same)
  under := by
    intro f hf
    obtain ⟨way, hw, recorded⟩ := List.mem_filterMap.mp hf
    rw [leads way hw f recorded]
    exact List.prefix_append start way

theorem timesListed_le_one {d : Disk} {files : List SchemaFile} (h : ListsOnce d.cwd start files)
    (loc : Location) : timesListed d files loc ≤ 1 :=
  calc timesListed d files loc
    _ ≤ files.countP ((· == loc) ∘ (·.target d.cwd)) := by
        apply List.countP_mono_left
        intro f _ isAt
        exact beq_iff_eq.mpr (of_decide_eq_true isAt).target_eq
    _ = (files.map (·.target d.cwd)).count loc := by rw [List.count, List.countP_map]
    _ ≤ 1 := List.nodup_iff_count_le_one.mp h.nodup loc

theorem isPrefix_of_isAt {d : Disk} {files : List SchemaFile} (h : ListsOnce d.cwd start files)
    {loc : Location} (listed : ∃ f ∈ files, f.IsAt d loc) : start <+: loc := by
  obtain ⟨f, hf, isAt⟩ := listed
  rw [← isAt.target_eq]
  exact h.under f hf

end ListsOnce

/-! ## Scans -/

namespace Scan

variable {d : Disk} {root : Path}

theorem mem_schemasBelow {way : Location} (h : way ∈ schemasBelow d root) :
    ∃ base n, d.locate root = .ok (.location base) ∧ (way, n) ∈ d.tree.below base := by
  unfold schemasBelow at h
  split at h
  · next base leads =>
    obtain ⟨e, he, rfl⟩ := List.mem_map.mp ((sortedBy_perm id _).mem_iff.mp h)
    exact ⟨base, e.2, leads, (List.mem_filter.mp he).1⟩
  · cases h

theorem isName_of_mem_schemasBelow {way : Location} (h : way ∈ schemasBelow d root) :
    ∀ n ∈ way, IsName n := by
  obtain ⟨base, n, -, below⟩ := mem_schemasBelow h
  exact FileTree.isName_of_mem_below below

/-- A directory is not a schema file itself, so each of these is some way away. -/
theorem ne_nil_of_mem_schemasBelow {way : Location} (dir : d.isDirectory root = true)
    (h : way ∈ schemasBelow d root) : way ≠ [] := by
  rintro rfl
  unfold schemasBelow at h
  split at h
  · next base leads =>
    obtain ⟨e, he, here⟩ := List.mem_map.mp ((sortedBy_perm id _).mem_iff.mp h)
    obtain ⟨below, taken⟩ := List.mem_filter.mp he
    obtain ⟨way, n⟩ := e
    cases here
    have node : d.tree.node? base = some n := by
      have listed := FileTree.mem_below_iff.mp below
      rw [List.append_nil] at listed
      exact FileTree.node?_of_mem listed
    have counts : countsAsFile root n = true := (Bool.and_eq_true_iff.mp taken).2
    -- A directory counts as a file only where its path is too long to be followed.
    rw [Disk.isDirectory_iff, Disk.node_of_locate leads node] at dir
    cases dir
    rw [countsAsFile, Disk.isUsable_of_locate leads] at counts
    cases counts
  · cases h

theorem schemasBelow_ascending (d : Disk) (root : Path) :
    (schemasBelow d root).Pairwise (· < ·) := by
  unfold schemasBelow
  split
  · next base _ =>
    apply sortedBy_strictly_ascending
    exact (d.tree.nodup_below base).sublist (List.filter_sublist.map Prod.fst)
  · exact List.Pairwise.nil

theorem nodup_schemasBelow (d : Disk) (root : Path) : (schemasBelow d root).Nodup :=
  nodup_of_ascending (schemasBelow_ascending d root)

theorem directory_eq (d : Disk) (m : Manifest) (root : Path) :
    directory d m root = (schemasBelow d root).filterMap fun way =>
      if m.isExcluded (Path.ofNames way) then none else some ⟨root, Path.ofNames way⟩ := by
  rw [directory, List.filterMap_map]
  rfl

theorem mem_directory {m : Manifest} {f : SchemaFile} (h : f ∈ directory d m root) :
    ∃ way ∈ schemasBelow d root, f = ⟨root, Path.ofNames way⟩ := by
  rw [directory_eq] at h
  obtain ⟨way, hw, recorded⟩ := List.mem_filterMap.mp h
  split at recorded
  · cases recorded
  · exact ⟨way, hw, (Option.some.inj recorded).symm⟩

theorem target_way {way : Location} (h : way ∈ schemasBelow d root) (cwd : Location) :
    (⟨root, Path.ofNames way⟩ : SchemaFile).target cwd = root.target cwd ++ way := by
  have names := isName_of_mem_schemasBelow h
  rw [SchemaFile.target, SchemaFile.fullPath, Path.target_join _ (Path.isAbsolute_ofNames names),
    Path.target_ofNames names]

/-- **A scan** of a directory lists no file twice. -/
theorem directory_listsOnce (d : Disk) (m : Manifest) (root : Path) :
    ListsOnce d.cwd (root.target d.cwd) (directory d m root) := by
  rw [directory_eq]
  apply ListsOnce.of_ways (nodup_schemasBelow d root)
  intro way hw f recorded
  split at recorded
  · cases recorded
  · cases recorded
    exact target_way hw d.cwd

end Scan

end MessageDocs
