import MessageDocs.Proofs.Command.Outermost
import MessageDocs.Proofs.Discovery.Project
import MessageDocs.Proofs.Manifest

/-! # A project that has been initialized

The manifest that `init` writes lists the outermost directories with schemas, as they are named,
between double quotes. Where their names can stand there as they are, the manifest is read back and
the project's schemas are those that `init` has found.

* `Command.Init.result_eq_ok`: what a run has done that succeeds.
* `Command.Init.discovered_after_init`: what is found in the project then.
* `Command.Init.invalid_after_init`: when the manifest is not read back.
-/

set_option autoImplicit false

namespace MessageDocs.Command.Init

open MessageDocs.Path

/-! ## Runs -/

/-- The sources of a manifest for what is found below a directory. -/
def sourceDirs (d : Disk) (root : Path) : List Text :=
  minimalDirs ((Scan.directory d {} root).filterMap (·.relative.parent?))

theorem result_eq_ok {a : Init} {t : Terminal} {d : Disk} (h : (run a t d).result = .ok ()) :
    d.writeText (Discovery.manifestAt a.path) (manifestText (sourceDirs d a.path)) =
      .ok (run a t d).session.disk := by
  unfold run at h ⊢
  dsimp only at h ⊢
  split at h
  · cases h
  · next allowed =>
    rw [if_neg allowed]
    split at h
    · cases h
    · next written => exact written

/-- The disk after a manifest has been written into a directory. -/
structure Initialized (d d' : Disk) (root : Path) (base : Location) (text : Text) : Prop where
  led : d.locate root = .ok (.location base)
  dir : d.tree.node? base = some .directory
  room : root.text.byteLength + 2 ≤ Disk.longestPath
  places : d.SamePlaces d'
  written : d.locate (Discovery.manifestAt root) = .ok (.location (base ++ [Manifest.fileName]))
  nodes : ∀ loc, d'.tree.node? loc =
    if loc = base ++ [Manifest.fileName] then some (.file (.text text)) else d.tree.node? loc

theorem exists_initialized {d d' : Disk} {root : Path} {text : Text}
    (dir : d.isDirectory root = true)
    (h : d.writeText (Discovery.manifestAt root) text = .ok d') :
    ∃ base, Initialized d d' root base text := by
  obtain ⟨loc, written, places, nodes⟩ := Disk.write_eq_ok h
  obtain ⟨base, led, at_base⟩ := Disk.exists_location Manifest.isName_fileName dir written
  have at_loc : loc = base ++ [Manifest.fileName] := by
    rw [← Disk.target_of_locate written, Discovery.target_manifestAt, Disk.target_of_locate led]
  have room : root.text.byteLength + 2 ≤ Disk.longestPath := by
    have usable := of_decide_eq_true (Disk.isUsable_of_locate written)
    rw [Discovery.manifestAt, text_join root Discovery.isAbsolute_fileName,
      Text.byteLength_append] at usable
    have name : (⟨Manifest.fileName⟩ : Path).text.byteLength = 11 := by decide +kernel
    have longer : root.text.byteLength ≤ root.slashed.byteLength := by
      rw [slashed]
      split
      · exact Nat.le_refl _
      · rw [Text.byteLength_append]
        exact Nat.le_add_right _ _
    omega
  rw [at_loc] at written nodes
  exact ⟨base, led, at_base, room, places, written, nodes⟩

/-! ## The disk with the manifest -/

namespace Initialized

variable {d d' : Disk} {root : Path} {base : Location} {text : Text}
  (h : Initialized d d' root base text)

include h

theorem led' : d'.locate root = .ok (.location base) :=
  h.places.locate_of h.led

theorem directory_iff (loc : Location) :
    d'.tree.node? loc = some .directory ↔ d.tree.node? loc = some .directory :=
  (h.places.directories loc).symm

/-- The manifest apart, nothing has changed. -/
theorem node?_eq {way : Location} (other : way ≠ [Manifest.fileName]) :
    d'.tree.node? (base ++ way) = d.tree.node? (base ++ way) := by
  rw [h.nodes, if_neg fun same => other (List.append_cancel_left same)]

theorem hasRoom (room : Scan.HasRoom d root) : Scan.HasRoom d' root := by
  have old : ∀ e ∈ Scan.contentsBelow d' root, e.1 ≠ [] → e.1 ≠ [Manifest.fileName] →
      e ∈ Scan.contentsBelow d root := by
    rintro ⟨way, n⟩ he some_way other
    rw [Scan.contentsBelow, h.led'] at he
    rw [Scan.contentsBelow, h.led]
    rw [FileTree.mem_below_iff_node? some_way] at he ⊢
    rwa [← h.node?_eq other]
  constructor
  · intro e he n hn
    by_cases other : e.1 = [Manifest.fileName]
    · rw [other, List.mem_singleton] at hn
      rw [hn]
      decide +kernel
    · exact room.names e (old e he (List.ne_nil_of_mem hn) other) n hn
  · rintro ⟨way, n⟩ he rfl
    by_cases here : way = []
    · rw [here]
      exact h.room
    · refine room.paths (way, .directory) (old _ he here ?_) rfl
      rintro rfl
      rw [Scan.contentsBelow, h.led'] at he
      have file := (FileTree.mem_below_iff_node? here).mp he
      rw [h.nodes, if_pos rfl] at file
      cases file

/-- A scan finds what it has found before. -/
theorem mem_schemasBelow_iff (room : Scan.HasRoom d root) {way : Location} :
    way ∈ Scan.schemasBelow d' root ↔ way ∈ Scan.schemasBelow d root := by
  rw [Scan.mem_schemasBelow_root h.led' (h.hasRoom room) h.room ((h.directory_iff base).mpr h.dir),
    Scan.mem_schemasBelow_root h.led room h.room h.dir]
  refine and_congr_right fun schema => ?_
  rw [h.node?_eq]
  rintro rfl
  have other : Scan.endsWithSchema [Manifest.fileName] = false := by decide +kernel
  rw [other] at schema
  cases schema

theorem scan_perm (room : Scan.HasRoom d root) :
    (Scan.directory d' {} root).Perm (Scan.directory d {} root) := by
  rw [Scan.directory_of_excludes rfl, Scan.directory_of_excludes rfl]
  refine List.Perm.map _ ?_
  rw [List.perm_ext_iff_of_nodup (Scan.nodup_schemasBelow d' root) (Scan.nodup_schemasBelow d root)]
  exact fun _ => h.mem_schemasBelow_iff room

theorem loadManifest_eq :
    Discovery.loadManifest d' (Discovery.manifestAt root) = Manifest.ofText text := by
  have read : d'.readText (Discovery.manifestAt root) = .ok text := by
    rw [Disk.readText_eq_ok_iff (h.places.locate_of h.written), h.nodes, if_pos rfl]
  rw [Discovery.loadManifest, read]

theorem ofProject_eq :
    Discovery.ofProject d' root = (Manifest.ofText text).map (Discovery.scanned d' root) := by
  have there : d'.contains (Discovery.manifestAt root) = true := by
    rw [Disk.contains, Disk.node_of_locate (h.places.locate_of h.written)]
    rw [h.nodes, if_pos rfl]
  rw [Discovery.ofProject_of_contains there, h.loadManifest_eq]

end Initialized

/-! ## The directories that are written -/

theorem exists_ways {P : Location → Prop} {paths : List Path}
    (h : ∀ p ∈ paths, ∃ way, p = ofNames way ∧ P way) :
    ∃ ways : List Location, paths = ways.map ofNames ∧ ∀ way ∈ ways, P way := by
  induction paths with
  | nil => exact ⟨[], rfl, fun _ hw => nomatch hw⟩
  | cons p paths ih =>
    obtain ⟨⟨way, eq, holds⟩, rest⟩ := List.forall_mem_cons.mp h
    obtain ⟨ways, eqs, all⟩ := ih rest
    refine ⟨way :: ways, by rw [eq, eqs, List.map_cons], List.forall_mem_cons.mpr ⟨holds, all⟩⟩

theorem filterMap_parent (d : Disk) (root : Path)
    (some_ways : ∀ way ∈ Scan.schemasBelow d root, way ≠ []) :
    (Scan.directory d {} root).filterMap (·.relative.parent?) =
      (Scan.schemasBelow d root).map fun way => ofNames way.dropLast := by
  rw [Scan.directory_of_excludes rfl, List.filterMap_map, ← List.filterMap_eq_map]
  apply List.filterMap_congr
  intro way hw
  exact parent?_ofNames (Scan.isName_of_mem_schemasBelow hw) (some_ways way hw)

/-- Directories below another one that cover its schemas and lie apart. -/
structure IsCover (d : Disk) (root : Path) (base : Location) (parts : List Location) : Prop where
  dirs : ∀ way ∈ parts, d.tree.node? (base ++ way) = some .directory
  cover : ∀ way ∈ Scan.schemasBelow d root, ∃ part ∈ parts, part <+: way
  apart : parts.Pairwise Location.Apart

section

variable {d : Disk} {root : Path} {base : Location} (led : d.locate root = .ok (.location base))
  (dir : d.tree.node? base = some .directory)

include led dir

omit led in
theorem isCover_here : IsCover d root base [[]] where
  dirs := by
    intro way hw
    rw [List.mem_singleton.mp hw, List.append_nil]
    exact dir
  cover := fun way _ => ⟨[], List.mem_singleton_self [], List.nil_prefix⟩
  apart := List.pairwise_singleton _ _

theorem directory_of_schema {way : Location} (h : way ∈ Scan.schemasBelow d root) :
    way ≠ [] ∧ d.tree.node? (base ++ way.dropLast) = some .directory := by
  have is_dir : d.isDirectory root = true := Disk.isDirectory_iff.mpr (Disk.node_of_locate led dir)
  have some_way := Scan.ne_nil_of_mem_schemasBelow is_dir h
  refine ⟨some_way, ?_⟩
  obtain ⟨n, below, -⟩ := (Scan.mem_schemasBelow_iff led).mp h
  have node := (FileTree.mem_below_iff_node? some_way).mp below
  obtain ⟨before, last, rfl⟩ := List.eq_nil_or_concat' way |>.resolve_left some_way
  rw [← List.append_assoc] at node
  rw [List.dropLast_concat]
  exact FileTree.directory_of_node? (List.cons_ne_nil last []) node

omit led dir in
theorem apart_of_outermost {dirs : List Path} {parts : List Location}
    (outer : outermost dirs = parts.map ofNames) (names : ∀ part ∈ parts, ∀ n ∈ part, IsName n) :
    parts.Pairwise Location.Apart := by
  have once : (parts.map ofNames).Nodup := outer ▸ (nodup_distinct _).filter _
  have alone : ∀ {a b}, a ∈ parts → b ∈ parts → a <+: b → ofNames a = ofNames b := by
    intro a b ha hb within
    have ha' := outer ▸ List.mem_map_of_mem (f := ofNames) ha
    have hb' := outer ▸ List.mem_map_of_mem (f := ofNames) hb
    rw [← components_ofNames_prefix_iff (names a ha) (names b hb)] at within
    exact outermost_unique ha' hb' within List.prefix_rfl
  exact (List.pairwise_map.mp once).imp_of_mem fun ha hb different =>
    ⟨fun within => different (alone ha hb within),
      fun within => different (alone hb ha within).symm⟩

/-- **The directories that are written** are those of a cover, unless the directory is the only
one. -/
theorem exists_cover (below : sourceDirs d root ≠ [("." : Text)]) :
    ∃ parts, IsCover d root base parts ∧
      (sourceDirs d root).Perm (parts.map Scan.sourceText) := by
  have some_ways : ∀ way ∈ Scan.schemasBelow d root, way ≠ [] :=
    fun way hw => (directory_of_schema led dir hw).1
  have names : ∀ way ∈ Scan.schemasBelow d root, ∀ n ∈ way.dropLast, IsName n :=
    fun way hw n hn => Scan.isName_of_mem_schemasBelow hw n (List.mem_of_mem_dropLast hn)
  rw [sourceDirs, filterMap_parent d root some_ways] at below ⊢
  have listed : ∀ way ∈ Scan.schemasBelow d root, ofNames way.dropLast ∈
      (Scan.schemasBelow d root).map fun way => ofNames way.dropLast :=
    fun way hw => List.mem_map_of_mem (f := fun way => ofNames way.dropLast) hw
  -- Each directory is written by its names, of which there are some.
  have notHere := Bool.eq_false_iff.mpr fun here => below (minimalDirs_of_isAmong here)
  have some_text : ∀ way ∈ Scan.schemasBelow d root, (ofNames way.dropLast).text ≠ [] := by
    intro way hw none
    have here := isAmong_here (listed way hw) none
    rw [notHere] at here
    cases here
  obtain ⟨parts, outer, parts_of⟩ : ∃ parts : List Location,
      outermost ((Scan.schemasBelow d root).map fun way => ofNames way.dropLast) =
        parts.map ofNames ∧
      ∀ part ∈ parts, ∃ way ∈ Scan.schemasBelow d root, part = way.dropLast := by
    apply exists_ways
    intro p hp
    obtain ⟨_, hq, rfl⟩ := List.mem_map.mp (mem_of_mem_distinct (mem_outermost_iff.mp hp).1)
    obtain ⟨way, hw, rfl⟩ := List.mem_map.mp hq
    exact ⟨way.dropLast, if_neg (some_text way hw), way, hw, rfl⟩
  have part_names : ∀ part ∈ parts, ∀ n ∈ part, IsName n := by
    intro part hp
    obtain ⟨way, hw, rfl⟩ := parts_of part hp
    exact names way hw
  refine ⟨parts, ⟨?_, ?_, apart_of_outermost outer part_names⟩, ?_⟩
  · intro part hp
    obtain ⟨way, hw, rfl⟩ := parts_of part hp
    exact (directory_of_schema led dir hw).2
  · intro way hw
    obtain ⟨q, hq, contains⟩ := exists_outermost (listed way hw)
    rw [outer] at hq
    obtain ⟨part, hp, rfl⟩ := List.mem_map.mp hq
    rw [named, if_neg (some_text way hw),
      components_ofNames_prefix_iff (part_names part hp) (names way hw)] at contains
    exact ⟨part, hp, contains.trans (List.dropLast_prefix way)⟩
  · refine (minimalDirs_perm notHere).trans (List.Perm.of_eq ?_)
    rw [outer, List.map_map]
    apply List.map_congr_left
    intro part hp
    obtain ⟨way, hw, rfl⟩ := parts_of part hp
    have some_way : way.dropLast ≠ [] := fun none => some_text way hw (by rw [none]; rfl)
    rw [Scan.sourceText, if_neg some_way]
    rfl

end

/-! ## Discovery -/

/-- The sources by which a project is discovered: the directory itself where no others are
written. -/
def discoveredSources (d : Disk) (root : Path) : List Text :=
  if sourceDirs d root = [] then [("." : Text)] else sourceDirs d root

theorem effectiveSources_ofSources (d : Disk) (root : Path) :
    (Manifest.ofSources (sourceDirs d root)).effectiveSources = discoveredSources d root := by
  rw [Manifest.effectiveSources, Manifest.ofSources, discoveredSources]
  dsimp only
  by_cases all : (sourceDirs d root).all (· = ['.']) = true
  · rw [if_pos all, if_pos rfl]
    rcases all_here_iff.mp all with none | one
    · rw [sourceDirs, if_pos none]
    · rw [sourceDirs, if_neg (by rw [one]; exact List.cons_ne_nil _ _), one]
  · rw [if_neg all]

theorem exists_discovered_cover {d : Disk} {root : Path} {base : Location}
    (led : d.locate root = .ok (.location base)) (dir : d.tree.node? base = some .directory) :
    ∃ parts, IsCover d root base parts ∧
      (discoveredSources d root).Perm (parts.map Scan.sourceText) := by
  by_cases one : sourceDirs d root = [] ∨ sourceDirs d root = [("." : Text)]
  · refine ⟨[[]], isCover_here dir, List.Perm.of_eq ?_⟩
    rw [discoveredSources]
    rcases one with none | one
    · rw [if_pos none]
      rfl
    · rw [if_neg (by rw [one]; exact List.cons_ne_nil _ _), one]
      rfl
  · obtain ⟨some_dir, below⟩ := not_or.mp one
    rw [discoveredSources, if_neg some_dir]
    exact exists_cover led dir below

theorem Initialized.isCover {d d' : Disk} {root : Path} {base : Location} {text : Text}
    (h : Initialized d d' root base text) (room : Scan.HasRoom d root) {parts : List Location}
    (cover : IsCover d root base parts) : IsCover d' root base parts where
  dirs := fun way hw => (h.directory_iff _).mpr (cover.dirs way hw)
  cover := fun way hw => cover.cover way ((h.mem_schemasBelow_iff room).mp hw)
  apart := cover.apart

/-- **A project that has been initialized.** Where the directories that are written can stand
between double quotes as they are, and there is room for their paths, the manifest is read back with
them. The schemas found by it are those that a scan of the whole directory finds, then and before,
and each of them is found once. -/
theorem discovered_after_init {a : Init} {t : Terminal} {d : Disk}
    (dir : d.isDirectory a.path = true) (ran : (run a t d).result = .ok ())
    (quotable : ∀ s ∈ sourceDirs d a.path, Yaml.Quotable s) (room : Scan.HasRoom d a.path) :
    ∃ found, Discovery.ofProject (run a t d).session.disk a.path = .ok found ∧
      Discovery.loadManifest (run a t d).session.disk (Discovery.manifestAt a.path) =
        .ok found.manifest ∧
      found.hasManifest = true ∧
      found.manifest.effectiveSources = discoveredSources d a.path ∧
      (found.files.map (·.fullPath.components)).Perm
        ((Scan.directory (run a t d).session.disk {} a.path).map (·.fullPath.components)) ∧
      (found.files.map (·.target d.cwd)).Nodup ∧
      (Scan.directory (run a t d).session.disk {} a.path).Perm (Scan.directory d {} a.path) := by
  obtain ⟨base, h⟩ := exists_initialized dir (result_eq_ok ran)
  have loads := Manifest.ofText_manifestText quotable
  have sources := effectiveSources_ofSources d a.path
  obtain ⟨parts, cover, written⟩ := exists_discovered_cover h.led h.dir
  have cover' := h.isCover room cover
  obtain ⟨files, once⟩ := @Scan.sources_perm _ (Manifest.ofSources (sourceDirs d a.path)) rfl _ _
    h.led' (h.hasRoom room) h.room _ cover'.dirs cover'.cover cover'.apart
  -- The sources are written in the order of their names, so the parts come in another order.
  have listed := (written.map fun source => Scan.directory (run a t d).session.disk
    (Manifest.ofSources (sourceDirs d a.path)) (a.path.join ⟨source⟩)).flatten
  rw [h.places.cwd] at once
  refine ⟨_, h.ofProject_eq.trans (congrArg (Except.map _) loads), h.loadManifest_eq.trans loads,
    rfl, sources, ?_, ?_, h.scan_perm room⟩
  · rw [Discovery.scanned, sources]
    exact (listed.map _).trans files
  · rw [Discovery.scanned, sources]
    exact (listed.map _).nodup_iff.mpr once

/-- A project with schemas in a directory, in another one below it, and beside it. -/
def spacedDirectories : Disk where
  tree := (do
    let t ← FileTree.empty.putDirectory ["my msgs"]
    let t ← t.putFile ["my msgs", "A.msg"] (.text "u8 x")
    let t ← t.putDirectory ["my msgs", "old"]
    let t ← t.putFile ["my msgs", "old", "B.msg"] (.text "u8 y")
    let t ← t.putDirectory ["srv"]
    t.putFile ["srv", "C.msg"] (.text "u8 z")).getD FileTree.empty
  cwd := []

theorem spacedDirectories_discovered :
    spacedDirectories.isDirectory ⟨"."⟩ = true ∧
    (run {} {} spacedDirectories).result = .ok () ∧
    sourceDirs spacedDirectories ⟨"."⟩ = ["my msgs/", "srv/"] ∧
    (∀ s ∈ sourceDirs spacedDirectories ⟨"."⟩, Yaml.Quotable s) ∧
    Scan.HasRoom spacedDirectories ⟨"."⟩ ∧
    ∃ found,
      Discovery.ofProject (run {} {} spacedDirectories).session.disk ⟨"."⟩ = .ok found ∧
      (found.files.map (·.fullPath.components)).Perm
        ((Scan.directory (run {} {} spacedDirectories).session.disk {} ⟨"."⟩).map
          (·.fullPath.components)) ∧
      (found.files.map (·.target spacedDirectories.cwd)).Nodup ∧
      (Scan.directory (run {} {} spacedDirectories).session.disk {} ⟨"."⟩).length = 3 := by
  have dir : spacedDirectories.isDirectory ⟨"."⟩ = true := by decide +kernel
  have ran : (run {} {} spacedDirectories).result = .ok () := by decide +kernel
  have sources : sourceDirs spacedDirectories ⟨"."⟩ = ["my msgs/", "srv/"] := by decide +kernel
  have quotable : ∀ s ∈ sourceDirs spacedDirectories ⟨"."⟩, Yaml.Quotable s := by
    rw [sources]
    decide +kernel
  have room : Scan.HasRoom spacedDirectories ⟨"."⟩ := by decide +kernel
  obtain ⟨found, discovered, -, -, -, files, once, scan⟩ :=
    discovered_after_init (a := {}) (t := {}) dir ran quotable room
  have three : (Scan.directory spacedDirectories {} ⟨"."⟩).length = 3 := by decide +kernel
  exact ⟨dir, ran, sources, quotable, room, found, discovered, files, once,
    scan.length_eq.trans three⟩

/-- A directory whose name has a character that means something between double quotes. -/
def escapedDirectory (name : Text) : Disk where
  tree := (do
    let t ← FileTree.empty.putDirectory [name]
    t.putFile [name, "A.msg"] (.text "u8 x")).getD FileTree.empty
  cwd := []

/-- The names of directories are written as they are: a quote in one ends the scalar, so that the
manifest cannot be read, and a backslash makes an escape, so that another directory is meant. -/
theorem escapes_not_discovered :
    ((run {} {} (escapedDirectory "a\"b")).result = .ok () ∧
      (Scan.directory (run {} {} (escapedDirectory "a\"b")).session.disk {} ⟨"."⟩).length = 1 ∧
      Discovery.loadManifest (run {} {} (escapedDirectory "a\"b")).session.disk
        (Discovery.manifestAt ⟨"."⟩) = .error Manifest.invalid) ∧
    (run {} {} (escapedDirectory "a\\b")).result = .ok () ∧
      (Scan.directory (run {} {} (escapedDirectory "a\\b")).session.disk {} ⟨"."⟩).length = 1 ∧
      ∃ found, Discovery.ofProject (run {} {} (escapedDirectory "a\\b")).session.disk ⟨"."⟩ =
        .ok found ∧ found.files = [] := by
  refine ⟨⟨by decide +kernel, by decide +kernel, by decide +kernel⟩, by decide +kernel,
    by decide +kernel, ?_⟩
  exact Discovery.exists_ok_of_any (by decide +kernel)

/-! ## Directories that spoil the manifest -/

/-- **A project that initialization spoils.** Where a directory that is written has a character that
no manifest may contain, the manifest is not read back, and the project is not found any more. -/
theorem invalid_after_init {a : Init} {t : Terminal} {d : Disk}
    (dir : d.isDirectory a.path = true) (ran : (run a t d).result = .ok ()) {s : Text}
    (hs : s ∈ sourceDirs d a.path) {c : Char} (hc : c ∈ s) (bad : Yaml.isAllowed c = false) :
    Discovery.loadManifest (run a t d).session.disk (Discovery.manifestAt a.path) =
        .error Manifest.invalid ∧
      Discovery.ofProject (run a t d).session.disk a.path = .error Manifest.invalid := by
  obtain ⟨base, h⟩ := exists_initialized dir (result_eq_ok ran)
  have refused := Manifest.ofText_of_not_isAllowed hs hc bad
  exact ⟨h.loadManifest_eq.trans refused, h.ofProject_eq.trans (congrArg (Except.map _) refused)⟩

end MessageDocs.Command.Init
