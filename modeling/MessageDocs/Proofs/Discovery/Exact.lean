import MessageDocs.Proofs.Discovery.Parts
import MessageDocs.Proofs.Path.Ancestors

/-! # What a scan of a directory finds

A scan keeps what is named like a schema and does not count as a directory when it is looked at by
its path. A directory whose path is too long to be looked at is kept as well; everything else that
is kept is a file. The files are in the order of their components, and those of a directory further
inside are found from there too.

* `Scan.mem_schemasBelow_subdirectory`: what is found from a directory further inside.
* `Scan.directory_exact`: which files a scan finds, and in which order.
-/

set_option autoImplicit false

namespace MessageDocs

open MessageDocs.Path

namespace Path

/-! ## Names in paths -/

/-- Names are ordered among the components as they are among themselves. -/
theorem map_name_lt {a b : List Text} (h : a < b) :
    a.map Component.name < b.map Component.name := by
  change List.Lex _ _ _ at h
  induction h with
  | nil => exact List.Lex.nil
  | cons _ ih => exact List.Lex.cons ih
  | rel less => exact List.Lex.rel (Or.inr ⟨rfl, less⟩)

theorem eq_of_ofNames_eq {a b : List Text} (ha : ∀ n ∈ a, IsName n) (hb : ∀ n ∈ b, IsName n)
    (h : ofNames a = ofNames b) : a = b := by
  have components := congrArg Path.components h
  rw [components_ofNames ha, components_ofNames hb] at components
  exact List.map_injective_iff.mpr (fun _ _ same => Component.name.inj same) components

/-- A path through names that begins with some of them goes on through the others. -/
theorem eq_append_of_join {names way : List Text} {rel : Path} (are_names : ∀ n ∈ names, IsName n)
    (some_names : names ≠ []) (way_names : ∀ n ∈ way, IsName n) (some_way : way ≠ [])
    (h : ofNames way = (ofNames names).join rel) :
    ∃ rest, rest ≠ [] ∧ way = names ++ rest ∧ rel = ofNames rest := by
  have relative : rel.isAbsolute = false := by
    rw [← Bool.not_eq_true]
    intro absolute
    have whole := isAbsolute_ofNames way_names
    rw [h, join, if_pos absolute, absolute] at whole
    cases whole
  have text : (ofNames way).text = (ofNames names).text ++ '/' :: rel.text := by
    rw [h, join, if_neg (by simp [relative]), if_neg]
    exact not_or.mpr ⟨text_ofNames_ne_nil are_names some_names,
      (isWritten_names are_names).getLast?_ne_slash⟩
  have segments := congrArg segmentsOf text
  rw [(isWritten_names way_names).segmentsOf_eq some_way, segmentsOf,
    Text.split_append_cons (by rfl)] at segments
  refine ⟨segmentsOf rel.text, Text.split_ne_nil _ _, ?_, ?_⟩
  · rw [segments]
    exact congrArg (· ++ _) ((isWritten_names are_names).segmentsOf_eq some_names)
  · exact congrArg Path.mk (Text.join_split '/' rel.text).symm

end Path

namespace Scan

section

variable {d : Disk} {root : Path} {base : Location} (led : d.locate root = .ok (.location base))

include led

/-! ## Directories further inside -/

section

variable {names rest : Location} (node : d.tree.node? (base ++ names) = some .directory)

include node

theorem locate_subdirectory (found : d.isDirectory (root.join (ofNames names)) = true) :
    d.locate (root.join (ofNames names)) = .ok (.location (base ++ names)) := by
  have are_names := FileTree.isName_of_node? node
  have relative := isAbsolute_ofNames are_names
  rcases Disk.node_eq_ok_iff.mp (Disk.isDirectory_iff.mp found) with ⟨gone, -⟩ | ⟨loc, there, -⟩
  · -- What is found on the way from a directory is no removed one.
    rw [Disk.locate_join_eq led relative (nul_not_mem_ofNames are_names)
      (Disk.isUsable_of_locate gone)] at gone
    cases reached : Disk.walk d.tree base (segmentsOf (ofNames names).text) with
    | error e =>
      rw [reached] at gone
      cases gone
    | ok l =>
      rw [reached] at gone
      cases gone
  · have target := Disk.target_of_locate there
    rw [target_join root relative, Disk.target_of_locate led, target_ofNames are_names] at target
    rw [there, target]

variable (some_names : names ≠ [])

include some_names

/-- **From a directory further inside** the same is found as from further outside. -/
theorem mem_schemasBelow_subdirectory (dir : d.tree.node? base = some .directory)
    (found : d.isDirectory (root.join (ofNames names)) = true) (some_rest : rest ≠ []) :
    rest ∈ schemasBelow d (root.join (ofNames names)) ↔ names ++ rest ∈ schemasBelow d root := by
  have are_names := FileTree.isName_of_node? node
  have same_path : ∀ way, (root.join (ofNames names)).joinNames way =
      root.joinNames (names ++ way) := by
    intro way
    rw [joinNames_append, joinNames_eq_join root are_names some_names]
  rw [mem_schemasBelow_iff_counts (locate_subdirectory led node found) node,
    mem_schemasBelow_iff_counts led dir, same_path, List.append_assoc]
  have last : endsWithSchema (names ++ rest) = endsWithSchema rest := by
    rw [endsWithSchema, endsWithSchema, List.getLast?_append_of_ne_nil _ some_rest]
  have reached : isReached root (names ++ rest) =
      isReached (root.join (ofNames names)) rest := by
    rw [isReached, isReached, same_path, List.dropLast_append_of_ne_nil some_rest]
    simp [some_rest]
  rw [last, reached]

theorem mem_directory_subdirectory (dir : d.tree.node? base = some .directory)
    (found : d.isDirectory (root.join (ofNames names)) = true) (rel : Path) :
    ⟨root, (ofNames names).join rel⟩ ∈ directory d {} root ↔
      ⟨root.join (ofNames names), rel⟩ ∈ directory d {} (root.join (ofNames names)) := by
  have are_names := FileTree.isName_of_node? node
  rw [directory_of_excludes rfl, directory_of_excludes rfl, List.mem_map, List.mem_map]
  constructor
  · rintro ⟨way, found_way, same⟩
    have some_way := ne_nil_of_mem_schemasBelow
      (Disk.isDirectory_iff.mpr (Disk.node_of_locate led dir)) found_way
    obtain ⟨rest, some_rest, rfl, rfl⟩ := eq_append_of_join are_names some_names
      (isName_of_mem_schemasBelow found_way) some_way (SchemaFile.mk.inj same).2
    exact ⟨rest,
      (mem_schemasBelow_subdirectory led node some_names dir found some_rest).mpr found_way, rfl⟩
  · rintro ⟨rest, found_rest, same⟩
    obtain rfl := (SchemaFile.mk.inj same).2
    have some_rest := ne_nil_of_mem_schemasBelow found found_rest
    refine ⟨names ++ rest,
      (mem_schemasBelow_subdirectory led node some_names dir found some_rest).mp found_rest, ?_⟩
    rw [(isWritten_names are_names).join_eq (isWritten_names (isName_of_mem_schemasBelow found_rest))
      some_rest]

end

end

/-! ## What is found, and in which order -/

/-- The files of a scan are strictly in the order of the components of their paths. -/
theorem directory_ascending (d : Disk) (m : Manifest) (root : Path) :
    (directory d m root).Pairwise fun f g => f.relative.components < g.relative.components := by
  rw [directory_eq, List.pairwise_filterMap]
  apply (schemasBelow_ascending d root).imp_of_mem
  intro way way' hw hw' less f recorded g recorded'
  split at recorded
  · cases recorded
  · split at recorded'
    · cases recorded'
    · cases recorded
      cases recorded'
      dsimp only
      rw [components_ofNames (isName_of_mem_schemasBelow hw),
        components_ofNames (isName_of_mem_schemasBelow hw')]
      exact map_name_lt less

/-- The way to something that is named like a schema and that no pattern excludes. -/
def IsListable (m : Manifest) (names : Location) : Prop :=
  (∃ before, ∃ stem : Text, stem ≠ [] ∧ names = before ++ [stem ++ ".msg"]) ∧
    m.isExcluded (ofNames names) = false

section

variable {d : Disk} {root : Path} {base : Location} (led : d.locate root = .ok (.location base))
  (dir : d.tree.node? base = some .directory)
  (walked : ∀ e ∈ contentsBelow d root, isReached root e.1 = true) (m : Manifest)

include led dir walked

theorem mem_schemasBelow_of_walked {names : Location} :
    names ∈ schemasBelow d root ↔ endsWithSchema names = true ∧
      ((∃ c, d.tree.node? (base ++ names) = some (.file c)) ∨
        d.tree.node? (base ++ names) = some .directory ∧
          Disk.isUsable (root.joinNames names) = false) := by
  rw [mem_schemasBelow_iff_counts led dir]
  refine and_congr_right fun schema => ?_
  constructor
  · rintro ⟨-, n, node, counts⟩
    rcases countsAsFile_iff.mp counts with ⟨c, rfl⟩ | ⟨rfl, long⟩
    · exact Or.inl ⟨c, node⟩
    · exact Or.inr ⟨node, long⟩
  · intro there
    obtain ⟨n, node, counts⟩ : ∃ n, d.tree.node? (base ++ names) = some n ∧
        countsAsFile (root.joinNames names) n = true := by
      rcases there with ⟨c, node⟩ | ⟨node, long⟩
      · exact ⟨_, node, rfl⟩
      · exact ⟨_, node, countsAsFile_iff.mpr (Or.inr ⟨rfl, long⟩)⟩
    refine ⟨walked (names, n) ?_, n, node, counts⟩
    rw [contentsBelow, led]
    exact (FileTree.mem_below_iff_node? (ne_nil_of_endsWithSchema schema)).mpr node

theorem mem_directory_iff {f : SchemaFile} :
    f ∈ directory d m root ↔ ∃ names, IsListable m names ∧ f = ⟨root, ofNames names⟩ ∧
      ((∃ c, d.tree.node? (base ++ names) = some (.file c)) ∨
        d.tree.node? (base ++ names) = some .directory ∧
          Disk.isUsable (root.joinNames names) = false) := by
  rw [directory_eq, List.mem_filterMap]
  constructor
  · rintro ⟨names, listed, recorded⟩
    obtain ⟨schema, there⟩ := (mem_schemasBelow_of_walked led dir walked).mp listed
    split at recorded
    · cases recorded
    · next kept =>
      rw [Bool.not_eq_true] at kept
      exact ⟨names, ⟨endsWithSchema_iff.mp schema, kept⟩, (Option.some.inj recorded).symm, there⟩
  · rintro ⟨names, ⟨schema, kept⟩, rfl, there⟩
    refine ⟨names, (mem_schemasBelow_of_walked led dir walked).mpr
      ⟨endsWithSchema_iff.mpr schema, there⟩, ?_⟩
    rw [if_neg (by simp [kept])]

theorem finds_files_iff :
    (∀ f, f ∈ directory d m root ↔ ∃ names c, IsListable m names ∧ f = ⟨root, ofNames names⟩ ∧
      d.tree.node? (base ++ names) = some (.file c)) ↔
        ∀ names, IsListable m names → d.tree.node? (base ++ names) = some .directory →
          Disk.isUsable (root.joinNames names) = true := by
  constructor
  · intro files names listable node
    rw [← Bool.not_eq_false]
    intro long
    have found : ⟨root, ofNames names⟩ ∈ directory d m root :=
      (mem_directory_iff led dir walked m).mpr ⟨names, listable, rfl, Or.inr ⟨node, long⟩⟩
    obtain ⟨names', c, -, same, file⟩ := (files _).mp found
    have same_names : names = names' := eq_of_ofNames_eq (FileTree.isName_of_node? node)
      (FileTree.isName_of_node? file) (SchemaFile.mk.inj same).2
    rw [same_names, file] at node
    cases node
  · intro usable f
    rw [mem_directory_iff led dir walked m]
    constructor
    · rintro ⟨names, listable, rfl, ⟨c, file⟩ | ⟨node, long⟩⟩
      · exact ⟨names, c, listable, rfl, file⟩
      · rw [usable names listable node] at long
        cases long
    · rintro ⟨names, c, listable, rfl, file⟩
      exact ⟨names, listable, rfl, Or.inl ⟨c, file⟩⟩

/-- **A scan of a directory** that comes to all that lies below finds the files named like a schema
that no pattern excludes, and the directories so named that cannot be looked at. It finds the files
alone if and only if there are no such directories. What it finds is strictly in the order of its
components, and without patterns a scan of a directory further inside finds the same there. -/
theorem directory_exact :
    (∀ f, f ∈ directory d m root ↔ ∃ names, IsListable m names ∧ f = ⟨root, ofNames names⟩ ∧
      ((∃ c, d.tree.node? (base ++ names) = some (.file c)) ∨
        d.tree.node? (base ++ names) = some .directory ∧
          Disk.isUsable (root.joinNames names) = false)) ∧
    ((∀ f, f ∈ directory d m root ↔ ∃ names c, IsListable m names ∧ f = ⟨root, ofNames names⟩ ∧
      d.tree.node? (base ++ names) = some (.file c)) ↔
        ∀ names, IsListable m names → d.tree.node? (base ++ names) = some .directory →
          Disk.isUsable (root.joinNames names) = true) ∧
    (directory d m root).Pairwise (fun f g => f.relative.components < g.relative.components) ∧
    ∀ names, names ≠ [] → d.tree.node? (base ++ names) = some .directory →
      d.isDirectory (root.join (ofNames names)) = true → ∀ rel,
        (⟨root, (ofNames names).join rel⟩ ∈ directory d {} root ↔
          ⟨root.join (ofNames names), rel⟩ ∈ directory d {} (root.join (ofNames names))) := by
  refine ⟨fun _ => mem_directory_iff led dir walked m, finds_files_iff led dir walked m,
    directory_ascending d m root, ?_⟩
  intro names some_names node within rel
  exact mem_directory_subdirectory led node some_names dir within rel

end

/-- A disk with schemas in a directory, in one further inside that is named like a schema, and in
one that may be excluded. -/
def nestedDisk : Disk where
  tree := (do
    let t ← FileTree.empty.putDirectory ["msg"]
    let t ← t.putFile ["msg", "notes.txt"] (.text "none")
    let t ← t.putDirectory ["msg", "sub.msg"]
    let t ← t.putFile ["msg", "sub.msg", "B.msg"] (.text "u8 x")
    let t ← t.putDirectory ["msg", "tmp"]
    t.putFile ["msg", "tmp", "C.msg"] (.text "u8 y")).getD FileTree.empty
  cwd := []

theorem nested_found :
    let m : Manifest := { excludes := ["tmp/*"] }
    (∀ f, f ∈ directory nestedDisk m ⟨"msg"⟩ ↔ ∃ names c, IsListable m names ∧
      f = ⟨⟨"msg"⟩, ofNames names⟩ ∧ nestedDisk.tree.node? (("msg" : Text) :: names) = some (.file c)) ∧
    directory nestedDisk m ⟨"msg"⟩ = [⟨⟨"msg"⟩, ⟨"sub.msg/B.msg"⟩⟩] ∧
    ⟨⟨"msg/sub.msg"⟩, ⟨"B.msg"⟩⟩ ∈ directory nestedDisk {} ⟨"msg/sub.msg"⟩ := by
  have listed : directory nestedDisk { excludes := ["tmp/*"] } ⟨"msg"⟩ =
      [⟨⟨"msg"⟩, ⟨"sub.msg/B.msg"⟩⟩] := by decide +kernel
  have usable : ∀ e ∈ contentsBelow nestedDisk ⟨"msg"⟩,
      Disk.isUsable ((⟨"msg"⟩ : Path).joinNames e.1) = true := by decide +kernel
  have led : nestedDisk.locate ⟨"msg"⟩ = .ok (.location ["msg"]) := by decide +kernel
  obtain ⟨-, files, -, within⟩ := directory_exact led (by decide +kernel) (by decide +kernel)
    { excludes := ["tmp/*"] }
  refine ⟨files.mpr ?_, listed, ?_⟩
  · rintro names ⟨⟨before, stem, -, last⟩, -⟩ node
    have below := (FileTree.mem_below_iff_node? (by simp [last])).mpr node
    refine usable (names, .directory) ?_
    rw [contentsBelow, led]
    exact below
  · exact (within ["sub.msg"] (by decide) (by decide +kernel) (by decide +kernel) ⟨"B.msg"⟩).mp
      (by decide +kernel)

/-- A path to the working directory of 4080 bytes. -/
def dotted : Path :=
  ⟨(List.replicate 2040 ("./" : Text)).flatten⟩

def dottedDisk : Disk where
  tree := (do
    let t ← FileTree.empty.putFile ["A.msg"] (.text "uint8 x\n")
    t.putDirectory ["oooooooooooo.msg"]).getD FileTree.empty
  cwd := []

/-- A directory is found like a file when its path is too long. -/
theorem directory_found :
    dottedDisk.locate dotted = .ok (.location []) ∧
    (∀ e ∈ contentsBelow dottedDisk dotted, isReached dotted e.1 = true) ∧
    dottedDisk.tree.node? ["oooooooooooo.msg"] = some .directory ∧
    ⟨dotted, ⟨"oooooooooooo.msg"⟩⟩ ∈ directory dottedDisk {} dotted := by
  have led : dottedDisk.locate dotted = .ok (.location []) := by decide +kernel
  have walked : ∀ e ∈ contentsBelow dottedDisk dotted, isReached dotted e.1 = true := by
    decide +kernel
  have node : dottedDisk.tree.node? ["oooooooooooo.msg"] = some .directory := by decide +kernel
  have long : Disk.isUsable (dotted.joinNames ["oooooooooooo.msg"]) = false := by decide +kernel
  refine ⟨led, walked, node, (mem_directory_iff led rfl walked {}).mpr ?_⟩
  exact ⟨["oooooooooooo.msg"], ⟨⟨[], "oooooooooooo", by decide, rfl⟩, rfl⟩, rfl, Or.inr ⟨node, long⟩⟩

end Scan

end MessageDocs
