import MessageDocs.Proofs.Discovery.Overlap
import MessageDocs.Proofs.Disk.Joined

/-! # Scans of parts of a directory

A directory below another one is written as a source by the names on the way to it, with a slash at
the end, and the directory itself by a dot. A scan of the source lists the files of the whole that
lie in it, as long as the names and paths on the disk leave room for being written so.

* `Scan.HasRoom`: names and paths that are short enough.
* `Scan.mem_schemasBelow_source`: what a scan of a source lists.
-/

set_option autoImplicit false

namespace MessageDocs

open MessageDocs.Path

namespace Scan

/-! ## Sources as they are written -/

/-- A directory below another one, by the names on the way to it, as a source of the latter. -/
def sourceText (way : Location) : Text :=
  if way = [] then ['.'] else (ofNames way).text ++ ['/']

def sourcePath (root : Path) (way : Location) : Path :=
  root.join ⟨sourceText way⟩

section

variable {root : Path} {way rest : Location} (names : ∀ n ∈ way, IsName n)

include names

theorem isAbsolute_sourceText : (⟨sourceText way⟩ : Path).isAbsolute = false := by
  rw [sourceText]
  split
  · rfl
  · next some_way =>
    obtain ⟨c, text, eq⟩ := List.exists_cons_of_ne_nil (text_ofNames_ne_nil names some_way)
    have relative := isAbsolute_ofNames names
    rw [isAbsolute, eq] at relative
    rw [isAbsolute, eq]
    exact relative

theorem nul_not_mem_sourceText : '\x00' ∉ sourceText way := by
  have plain := nul_not_mem_ofNames names
  rw [sourceText]
  split <;> simp [plain]

theorem text_sourcePath : (sourcePath root way).text = root.slashed ++ sourceText way :=
  text_join root (isAbsolute_sourceText names)

/-- The path by way of a source is at most two bytes longer than the path without it. -/
theorem byteLength_joinNames_source (rest_names : ∀ n ∈ rest, IsName n) :
    ((sourcePath root way).joinNames rest).text.byteLength ≤
      (root.joinNames (way ++ rest)).text.byteLength + 2 := by
  have all_names : ∀ n ∈ way ++ rest, IsName n := by
    intro n hn
    exact (List.mem_append.mp hn).elim (names n) (rest_names n)
  have source : (sourcePath root way).text = root.slashed ++ sourceText way := text_sourcePath names
  have slash : root.slashed.byteLength ≤ root.text.byteLength + 1 := by
    rw [slashed]
    split
    · exact Nat.le_add_right _ 1
    · rw [Text.byteLength_append]
      exact Nat.le_refl _
  by_cases here : way = []
  · subst here
    have dot : (sourcePath root []).slashed = root.slashed ++ ['.', '/'] := by
      rw [slashed_of_name source (by simp [sourceText]) (by simp [sourceText]), source,
        List.append_assoc]
      rfl
    by_cases none : rest = []
    · subst none
      change (sourcePath root []).text.byteLength ≤ root.text.byteLength + 2
      rw [source, Text.byteLength_append]
      change _ + 1 ≤ _
      omega
    · rw [text_joinNames _ rest_names none, dot, List.nil_append,
        text_joinNames root rest_names none, Text.byteLength_append, Text.byteLength_append,
        Text.byteLength_append]
      change _ + 2 + _ ≤ _ + _ + 2
      omega
  · have text : sourceText way = (ofNames way).text ++ ['/'] := if_neg here
    rw [text, ← List.append_assoc] at source
    have whole := text_joinNames root all_names (by simp [here])
    by_cases none : rest = []
    · subst none
      change (sourcePath root way).text.byteLength ≤ _
      rw [whole, source, List.append_nil, Text.byteLength_append]
      exact Nat.le_succ _
    · rw [text_joinNames _ rest_names none, slashed_of_getLast source, source, whole, ofNames,
        ofNames, ofNames, Text.join_append here none]
      simp [Text.byteLength_append]

end

/-! ## What a scan lists -/

/-- What lies under a path, with the way to it from there. -/
def contentsBelow (d : Disk) (root : Path) : List (Location × Node) :=
  match d.locate root with
  | .ok (.location base) => d.tree.below base
  | _ => []

/-- Names and paths under a directory that are short enough: paths of directories leave two bytes,
because a source is written with more than the names on the way to it. -/
structure HasRoom (d : Disk) (root : Path) : Prop where
  names : ∀ e ∈ contentsBelow d root, ∀ n ∈ e.1, n.byteLength ≤ Disk.longestName
  paths : ∀ e ∈ contentsBelow d root, e.2 = .directory →
    (root.joinNames e.1).text.byteLength + 2 ≤ Disk.longestPath

instance (d : Disk) (root : Path) : Decidable (HasRoom d root) :=
  decidable_of_iff
    ((∀ e ∈ contentsBelow d root, ∀ n ∈ e.1, n.byteLength ≤ Disk.longestName) ∧
      ∀ e ∈ contentsBelow d root, e.2 = .directory →
        (root.joinNames e.1).text.byteLength + 2 ≤ Disk.longestPath)
    ⟨fun ⟨names, paths⟩ => ⟨names, paths⟩, fun h => ⟨h.names, h.paths⟩⟩

theorem mem_schemasBelow_iff {d : Disk} {root : Path} {base way : Location}
    (led : d.locate root = .ok (.location base)) :
    way ∈ schemasBelow d root ↔ ∃ n, (way, n) ∈ d.tree.below base ∧
      isSchemaFile (root.joinNames way) = true ∧ isReached root way = true ∧
        countsAsFile (root.joinNames way) n = true := by
  rw [schemasBelow, led]
  dsimp only
  rw [(sortedBy_perm id _).mem_iff, List.mem_map]
  constructor
  · rintro ⟨e, he, rfl⟩
    obtain ⟨below, taken⟩ := List.mem_filter.mp he
    rw [Bool.and_eq_true, Bool.and_eq_true, and_assoc] at taken
    exact ⟨e.2, below, taken⟩
  · rintro ⟨n, below, taken⟩
    refine ⟨(way, n), List.mem_filter.mpr ⟨below, ?_⟩, rfl⟩
    rwa [Bool.and_eq_true, Bool.and_eq_true, and_assoc]

theorem schemasBelow_eq_nil {d : Disk} {p : Path} (dir : ¬d.isDirectory p = true)
    (file : d.isFile p = false) : schemasBelow d p = [] := by
  rw [schemasBelow]
  split
  · next loc led =>
    have nothing : d.tree.node? loc = none := by
      rw [Option.eq_none_iff_forall_ne_some]
      intro n at_loc
      cases n with
      | directory => exact dir (Disk.isDirectory_iff.mpr (Disk.node_of_locate led at_loc))
      | file c => exact Bool.eq_false_iff.mp file (Disk.isFile_iff.mpr ⟨loc, c, led, at_loc⟩)
    rw [FileTree.below_eq_nil nothing]
    rfl
  · rfl

/-- Whether a way ends with the name of a schema file. -/
def endsWithSchema (way : Location) : Bool :=
  way.getLast?.any fun n => (cutExtension n).2 = some schemaExtension

theorem isSchemaFile_joinNames (p : Path) {way : Location} (some_way : way ≠ [])
    (names : ∀ n ∈ way, IsName n) : isSchemaFile (p.joinNames way) = endsWithSchema way := by
  obtain ⟨before, n, rfl⟩ := List.eq_nil_or_concat' way |>.resolve_left some_way
  rw [isSchemaFile, extension?, fileName?_joinNames p (names n (by simp)), endsWithSchema,
    List.getLast?_concat]
  rfl

theorem endsWithSchema_iff {way : Location} :
    endsWithSchema way = true ↔
      ∃ before stem, stem ≠ [] ∧ way = before ++ [stem ++ '.' :: schemaExtension] := by
  have plain : '.' ∉ schemaExtension := by decide
  constructor
  · intro h
    rcases List.eq_nil_or_concat' way with rfl | ⟨before, n, rfl⟩
    · cases h
    · rw [endsWithSchema, List.getLast?_concat, Option.any_some, decide_eq_true_iff] at h
      obtain ⟨-, stem, some_stem, rfl⟩ := cutExtension_snd_eq_some_iff.mp h
      exact ⟨before, stem, some_stem, rfl⟩
  · rintro ⟨before, stem, some_stem, rfl⟩
    rw [endsWithSchema, List.getLast?_concat, Option.any_some, decide_eq_true_iff]
    exact cutExtension_snd_eq_some_iff.mpr ⟨plain, stem, some_stem, rfl⟩

theorem ne_nil_of_endsWithSchema {way : Location} (h : endsWithSchema way = true) : way ≠ [] := by
  rintro rfl
  cases h

theorem countsAsFile_iff {p : Path} {n : Node} :
    countsAsFile p n = true ↔
      (∃ c, n = .file c) ∨ n = .directory ∧ Disk.isUsable p = false := by
  cases n <;> simp [countsAsFile]

/-- **A scan of a directory** lists what is named like a schema, is reached and counts as a file. -/
theorem mem_schemasBelow_iff_counts {d : Disk} {p : Path} {loc way : Location}
    (led : d.locate p = .ok (.location loc)) (dir : d.tree.node? loc = some .directory) :
    way ∈ schemasBelow d p ↔
      endsWithSchema way = true ∧ isReached p way = true ∧
        ∃ n, d.tree.node? (loc ++ way) = some n ∧ countsAsFile (p.joinNames way) n = true := by
  have is_dir : d.isDirectory p = true := Disk.isDirectory_iff.mpr (Disk.node_of_locate led dir)
  constructor
  · intro h
    have some_way := ne_nil_of_mem_schemasBelow is_dir h
    obtain ⟨n, below, schema, reached, counts⟩ := (mem_schemasBelow_iff led).mp h
    rw [isSchemaFile_joinNames p some_way (FileTree.isName_of_mem_below below)] at schema
    exact ⟨schema, reached, n, (FileTree.mem_below_iff_node? some_way).mp below, counts⟩
  · rintro ⟨schema, reached, n, node, counts⟩
    have some_way := ne_nil_of_endsWithSchema schema
    have below := (FileTree.mem_below_iff_node? some_way).mpr node
    refine (mem_schemasBelow_iff led).mpr ⟨n, below, ?_, reached, counts⟩
    rwa [isSchemaFile_joinNames p some_way (FileTree.isName_of_mem_below below)]

/-- Where the paths of all directories can be used, a scan lists the schema files. -/
theorem mem_schemasBelow_iff_file {d : Disk} {p : Path} {loc way : Location}
    (led : d.locate p = .ok (.location loc)) (dir : d.tree.node? loc = some .directory)
    (usable : ∀ way, d.tree.node? (loc ++ way) = some .directory →
      Disk.isUsable (p.joinNames way) = true) :
    way ∈ schemasBelow d p ↔
      endsWithSchema way = true ∧ ∃ c, d.tree.node? (loc ++ way) = some (.file c) := by
  rw [mem_schemasBelow_iff_counts led dir]
  refine and_congr_right fun schema => ?_
  constructor
  · rintro ⟨-, n, node, counts⟩
    rcases countsAsFile_iff.mp counts with ⟨c, rfl⟩ | ⟨rfl, long⟩
    · exact ⟨c, node⟩
    · rw [usable way node] at long
      cases long
  · rintro ⟨c, node⟩
    refine ⟨?_, _, node, rfl⟩
    obtain ⟨before, n, rfl⟩ :=
      List.eq_nil_or_concat' way |>.resolve_left (ne_nil_of_endsWithSchema schema)
    have parent : d.tree.node? (loc ++ before) = some .directory := by
      rw [← List.append_assoc] at node
      exact FileTree.directory_of_node? (List.cons_ne_nil n []) node
    rw [isReached, List.dropLast_concat, usable before parent, Bool.or_true]

/-! ## Scans of sources -/

section

variable {d : Disk} {root : Path} {base way rest : Location}
  (led : d.locate root = .ok (.location base)) (room : HasRoom d root)
  (root_room : root.text.byteLength + 2 ≤ Disk.longestPath)

include led room root_room

theorem byteLength_of_directory (h : d.tree.node? (base ++ way) = some .directory) :
    (root.joinNames way).text.byteLength + 2 ≤ Disk.longestPath := by
  by_cases here : way = []
  · rw [here]
    exact root_room
  · refine room.paths (way, .directory) ?_ rfl
    rw [contentsBelow, led]
    exact (FileTree.mem_below_iff_node? here).mpr h

theorem isUsable_source (h : d.tree.node? (base ++ (way ++ rest)) = some .directory) :
    Disk.isUsable ((sourcePath root way).joinNames rest) = true := by
  have names := FileTree.isName_of_node? h
  have longer : ((sourcePath root way).joinNames rest).text.byteLength ≤
      (root.joinNames (way ++ rest)).text.byteLength + 2 :=
    byteLength_joinNames_source (fun n hn => names n (List.mem_append_left rest hn))
      fun n hn => names n (List.mem_append_right way hn)
  have short := byteLength_of_directory led room root_room h
  exact decide_eq_true (longer.trans short)

theorem locate_source (h : d.tree.node? (base ++ way) = some .directory) :
    d.locate (sourcePath root way) = .ok (.location (base ++ way)) := by
  have names := FileTree.isName_of_node? h
  have usable : Disk.isUsable (sourcePath root way) = true := by
    have := @isUsable_source d root base way [] led room root_room
    rw [List.append_nil] at this
    exact this h
  rw [sourcePath, Disk.locate_join_eq led (isAbsolute_sourceText names)
    (nul_not_mem_sourceText names) usable]
  by_cases here : way = []
  · rw [here, List.append_nil] at h ⊢
    change (Disk.walk d.tree base [['.']]).map _ = _
    rw [Disk.walk_stay h rfl]
    rfl
  · have segments : segmentsOf (sourceText way) = way ++ [[]] := by
      rw [sourceText, if_neg here, segmentsOf, Text.split_append_cons (by simp)]
      congr 1
      exact (isWritten_names names).segmentsOf_eq here
    have short : ∀ n ∈ way, n.byteLength ≤ Disk.longestName := by
      refine room.names (way, .directory) ?_
      rw [contentsBelow, led]
      exact (FileTree.mem_below_iff_node? here).mpr h
    rw [segments, Disk.walk_append, Disk.walk_names h names short]
    change (Disk.walk d.tree (base ++ way) [[]]).map _ = _
    rw [Disk.walk_stay h rfl]
    rfl

theorem mem_schemasBelow_root (dir : d.tree.node? base = some .directory) :
    way ∈ schemasBelow d root ↔
      endsWithSchema way = true ∧ ∃ c, d.tree.node? (base ++ way) = some (.file c) :=
  mem_schemasBelow_iff_file led dir fun _ below =>
    decide_eq_true (Nat.le_of_add_right_le (byteLength_of_directory led room root_room below))

/-- **A scan of a source** lists the schema files of the whole that lie in it. -/
theorem mem_schemasBelow_source (h : d.tree.node? (base ++ way) = some .directory) :
    rest ∈ schemasBelow d (sourcePath root way) ↔ way ++ rest ∈ schemasBelow d root := by
  have dir : d.tree.node? base = some .directory := by
    by_cases here : way = []
    · rwa [here, List.append_nil] at h
    · exact FileTree.directory_of_node? here h
  have source : ∀ rest, d.tree.node? ((base ++ way) ++ rest) = some .directory →
      Disk.isUsable ((sourcePath root way).joinNames rest) = true := by
    intro rest below
    rw [List.append_assoc] at below
    exact isUsable_source led room root_room below
  rw [mem_schemasBelow_iff_file (locate_source led room root_room h) h source,
    mem_schemasBelow_root led room root_room dir, List.append_assoc]
  refine and_congr_left fun ⟨c, node⟩ => ?_
  have some_rest : rest ≠ [] := by
    rintro rfl
    rw [List.append_nil, h] at node
    cases node
  rw [endsWithSchema, endsWithSchema, List.getLast?_append_of_ne_nil _ some_rest]

/-! ## A whole in parts -/

/-- The ways to the schema files in some directories below, one directory after the other. -/
def waysThrough (d : Disk) (root : Path) (parts : List Location) : List Location :=
  (parts.map fun way => (schemasBelow d (sourcePath root way)).map (way ++ ·)).flatten

/-- **Directories that cover a whole** and lie apart list each of its schema files once. -/
theorem waysThrough_perm {parts : List Location}
    (dirs : ∀ way ∈ parts, d.tree.node? (base ++ way) = some .directory)
    (cover : ∀ way ∈ schemasBelow d root, ∃ part ∈ parts, part <+: way)
    (apart : parts.Pairwise Location.Apart) :
    (waysThrough d root parts).Perm (schemasBelow d root) := by
  have once : (waysThrough d root parts).Nodup := by
    rw [waysThrough, List.nodup_flatten, List.forall_mem_map, List.pairwise_map]
    refine ⟨fun way _ => ?_, apart.imp fun {a b} lie way in_a in_b => ?_⟩
    · exact List.Nodup.map (List.append_right_injective way) (nodup_schemasBelow d _)
    · obtain ⟨_, -, rfl⟩ := List.mem_map.mp in_a
      obtain ⟨_, -, same⟩ := List.mem_map.mp in_b
      exact lie.not_both (List.prefix_append a _) ⟨_, same⟩
  rw [List.perm_ext_iff_of_nodup once (nodup_schemasBelow d root)]
  intro way
  rw [waysThrough, List.mem_flatten]
  constructor
  · rintro ⟨_, listed, found⟩
    obtain ⟨part, hp, rfl⟩ := List.mem_map.mp listed
    obtain ⟨rest, hr, rfl⟩ := List.mem_map.mp found
    exact (mem_schemasBelow_source led room root_room (dirs part hp)).mp hr
  · intro hw
    obtain ⟨part, hp, rest, rfl⟩ := cover way hw
    refine ⟨_, List.mem_map_of_mem hp, List.mem_map_of_mem ?_⟩
    exact (mem_schemasBelow_source led room root_room (dirs part hp)).mpr hw

end

section

variable {d : Disk} {root : Path} (some_text : root.text ≠ [])

include some_text

theorem components_sourcePath {way : Location} (names : ∀ n ∈ way, IsName n) :
    (sourcePath root way).components = root.components ++ way.map .name := by
  have segments : componentsOf (segmentsOf (sourceText way)) = way.map .name := by
    rw [sourceText]
    split
    · next here =>
      rw [here]
      rfl
    · rw [componentsOf_segmentsOf_append_slash, componentsOf_ofNames names]
      exact List.append_nil _
  rw [sourcePath, components_join_of_ne_nil some_text (isAbsolute_sourceText names), segments]

theorem text_sourcePath_ne_nil {way : Location} (names : ∀ n ∈ way, IsName n) :
    (sourcePath root way).text ≠ [] := by
  have slash : root.slashed ≠ [] := by
    rw [slashed]
    split
    · exact some_text
    · simp
  rw [text_sourcePath names]
  simp [slash]

omit some_text in
theorem directory_of_excludes {m : Manifest} (none : m.excludes = []) (p : Path) :
    directory d m p = (schemasBelow d p).map fun way => ⟨p, ofNames way⟩ := by
  rw [directory_eq, ← List.filterMap_eq_map]
  apply List.filterMap_congr
  intro way _
  rw [Manifest.isExcluded, none]
  rfl

theorem components_directory {m : Manifest} (none : m.excludes = []) :
    (directory d m root).map (·.fullPath.components) =
      (schemasBelow d root).map fun way => root.components ++ way.map .name := by
  rw [directory_of_excludes none, List.map_map]
  apply List.map_congr_left
  intro way hw
  exact components_join_names some_text (isName_of_mem_schemasBelow hw)

theorem components_sources {m : Manifest} (none : m.excludes = []) {parts : List Location}
    (names : ∀ way ∈ parts, ∀ n ∈ way, IsName n) :
    (sources d m root (parts.map sourceText)).map (·.fullPath.components) =
      (waysThrough d root parts).map fun way => root.components ++ way.map .name := by
  rw [sources, waysThrough, List.map_flatten, List.map_flatten, List.map_map, List.map_map,
    List.map_map]
  congr 1
  apply List.map_congr_left
  intro way hw
  change (directory d m (sourcePath root way)).map _ = ((schemasBelow d _).map _).map _
  rw [components_directory (text_sourcePath_ne_nil some_text (names way hw)) none,
    components_sourcePath some_text (names way hw), List.map_map]
  apply List.map_congr_left
  intro rest _
  simp

end

/-- **Scanning sources** that cover a directory and lie apart finds the files that a scan of the
directory finds, each of them once. -/
theorem sources_perm {d : Disk} {m : Manifest} (none : m.excludes = []) {root : Path}
    {base : Location} (led : d.locate root = .ok (.location base)) (room : HasRoom d root)
    (root_room : root.text.byteLength + 2 ≤ Disk.longestPath) {parts : List Location}
    (dirs : ∀ way ∈ parts, d.tree.node? (base ++ way) = some .directory)
    (cover : ∀ way ∈ schemasBelow d root, ∃ part ∈ parts, part <+: way)
    (apart : parts.Pairwise Location.Apart) :
    ((sources d m root (parts.map sourceText)).map (·.fullPath.components)).Perm
        ((directory d {} root).map (·.fullPath.components)) ∧
      ((sources d m root (parts.map sourceText)).map (·.target d.cwd)).Nodup := by
  have some_text := Disk.text_ne_nil_of_locate led
  have files := components_sources (d := d) some_text none fun way hw =>
    FileTree.isName_of_node? (dirs way hw)
  have ways := waysThrough_perm led room root_room dirs cover apart
  constructor
  · rw [files, components_directory some_text rfl]
    exact ways.map _
  · have targets : (sources d m root (parts.map sourceText)).map (·.target d.cwd) =
        (waysThrough d root parts).map (root.target d.cwd ++ ·) := by
      have steps_files := congrArg (List.map (steps d.cwd)) files
      rw [List.map_map, List.map_map] at steps_files
      refine steps_files.trans (List.map_congr_left fun way _ => ?_)
      rw [Function.comp_apply, steps_append, steps_names]
      rfl
    rw [targets]
    exact List.Nodup.map (List.append_right_injective _)
      (ways.nodup_iff.mpr (nodup_schemasBelow d root))

end Scan

end MessageDocs
