import MessageDocs.Proofs.Command.Build
import MessageDocs.Proofs.Discovery.Growth
import MessageDocs.Proofs.Disk.Creating

/-! # What the `build` command leaves besides its pages

A command that never leads up makes the output directory and those it lies in, and writes its pages
there. Nothing else on the disk is another after it, and pages are no schemas and no manifests.

* `Build.pageNames`: the names of the files that a batch is documented in.
* `Build.writeFiles_again`: files that are written over themselves.
* `Build.leavesPages_writeFiles`: what the disk has gained.
-/

set_option autoImplicit false

namespace MessageDocs.Command.Build

open MessageDocs.Path

/-! ## The names of pages -/

/-- The names of the files that a batch is documented in. -/
def pageNames (b : Batch) : List Text :=
  Page.Index.fileName :: b.messages.map Message.pageName

section Names

variable {b : Batch}

theorem exists_stem_of_mem_pageNames {n : Text} (h : n ∈ pageNames b) :
    ∃ stem : Text, n = stem ++ ".md" ∧ (stem = "index" ∨ ∃ m ∈ b.messages, stem = m.name) := by
  rcases List.mem_cons.mp h with rfl | h
  · exact ⟨"index", index_fileName_eq, Or.inl rfl⟩
  · obtain ⟨m, hm, rfl⟩ := List.mem_map.mp h
    exact ⟨m.name, rfl, Or.inr ⟨m, hm, rfl⟩⟩

theorem isFileName_of_mem_pageNames (names : ∀ m ∈ b.messages, '/' ∉ m.name) {n : Text}
    (h : n ∈ pageNames b) : IsFileName n := by
  obtain ⟨stem, rfl, rfl | ⟨m, hm, rfl⟩⟩ := exists_stem_of_mem_pageNames h
  · exact isFileName_page (by decide)
  · exact isFileName_page (names m hm)

theorem cutExtension_page_ne (stem : Text) :
    (cutExtension (stem ++ ".md")).2 ≠ some Scan.schemaExtension := by
  have cut : Text.cutAt '.' (stem ++ (".md" : Text)).reverse = some (['d', 'm'], stem.reverse) := by
    rw [List.reverse_append]
    rfl
  rw [cutExtension, cut]
  cases stem.reverse with
  | nil => simp
  | cons c rest =>
    dsimp only
    decide

theorem areForeign_pageNames (b : Batch) : AreForeign (pageNames b) where
  schema := by
    intro n hn
    obtain ⟨stem, rfl, -⟩ := exists_stem_of_mem_pageNames hn
    exact cutExtension_page_ne stem
  manifest := by
    intro h
    obtain ⟨stem, same, -⟩ := exists_stem_of_mem_pageNames h
    have ends := congrArg List.getLast? same
    rw [List.getLast?_append_of_ne_nil _ (by decide)] at ends
    cases ends

end Names

section Files

variable {a : Build} {t : Terminal} {d : Disk} {found : Discovery}

theorem path_of_mem_pageFiles {f : PageFile} (h : f ∈ pageFiles a t d found) :
    ∃ n ∈ pageNames (batchOf a d found), f.path = (outputOf a found).join ⟨n⟩ := by
  rw [pageFiles, filesOf_eq] at h
  rcases List.mem_append.mp h with h | h
  · obtain ⟨m, hm, rfl⟩ := List.mem_map.mp h
    exact ⟨m.pageName, List.mem_cons_of_mem _ (List.mem_map_of_mem hm), rfl⟩
  · rw [List.mem_singleton.mp h]
    exact ⟨Page.Index.fileName, List.mem_cons_self, rfl⟩

theorem exists_mem_pageFiles {n : Text} (h : n ∈ pageNames (batchOf a d found)) :
    ∃ f ∈ pageFiles a t d found, f.path = (outputOf a found).join ⟨n⟩ := by
  rw [pageFiles, filesOf_eq]
  rcases List.mem_cons.mp h with rfl | h
  · exact ⟨_, List.mem_append_right _ (List.mem_singleton_self _), rfl⟩
  · obtain ⟨m, hm, rfl⟩ := List.mem_map.mp h
    exact ⟨_, List.mem_append_left _ (List.mem_map_of_mem hm), rfl⟩

theorem isFileName_pageNames {n : Text} (h : n ∈ pageNames (batchOf a d found)) : IsFileName n :=
  isFileName_of_mem_pageNames (fun _ hm => Batch.not_mem_name hm) h

/-- What can be followed to its end has no NUL character, so a file name there is a name. -/
theorem IsFileName.isName {n : Text} (h : IsFileName n) {p : Path} {dest : Destination}
    (led : d.locate (p.join ⟨n⟩) = .ok dest) : IsName n := by
  have relative : (⟨n⟩ : Path).isAbsolute = false := by
    rw [isAbsolute, decide_eq_false_iff_not]
    exact fun first => h.plain (List.mem_of_mem_head? first)
  have plain := Disk.nul_not_mem_of_locate led
  rw [text_join p relative] at plain
  exact ⟨h.named, by simpa using h.plain,
    by simpa using fun nul => plain (List.mem_append_right _ nul)⟩

end Files

/-! ## Files written over themselves -/

/-- Files that are all there can be overwritten, which lists no other locations. -/
theorem writeFiles_over {files : List PageFile} {s : Session}
    (there : ∀ f ∈ files, ∃ loc c, s.disk.locate f.path = .ok (.location loc) ∧
      s.disk.tree.node? loc = some (.file c)) :
    (writeFiles files s).result = .ok () ∧
      (writeFiles files s).session.disk.tree.entries.map Prod.fst =
        s.disk.tree.entries.map Prod.fst := by
  induction files generalizing s with
  | nil => exact ⟨rfl, rfl⟩
  | cons f files ih =>
    obtain ⟨⟨loc, c, led, file⟩, others⟩ := List.forall_mem_cons.mp there
    obtain ⟨d, written, keys⟩ := Disk.exists_write led file (.text f.contents)
    obtain ⟨loc', led', same, nodes⟩ := Disk.write_eq_ok written
    rw [writeFiles, Disk.writeText, written]
    dsimp only
    have still : ∀ g ∈ files, ∃ loc c, d.locate g.path = .ok (.location loc) ∧
        d.tree.node? loc = some (.file c) := by
      intro g hg
      obtain ⟨there, old, led_g, file_g⟩ := others g hg
      by_cases here : there = loc'
      · exact ⟨there, _, same.locate_of led_g, by rw [nodes there, if_pos here]⟩
      · exact ⟨there, old, same.locate_of led_g, by rw [nodes there, if_neg here, file_g]⟩
    obtain ⟨result, keys'⟩ := ih (s := ({ s with disk := d } : Session).report f.notice) still
    exact ⟨result, keys'.trans keys⟩

theorem exists_file_of_writeFiles {files : List PageFile} {s : Session}
    (h : (writeFiles files s).result = .ok ()) {f : PageFile} (hf : f ∈ files) :
    ∃ loc c, (writeFiles files s).session.disk.locate f.path = .ok (.location loc) ∧
      (writeFiles files s).session.disk.tree.node? loc = some (.file c) := by
  obtain ⟨same, places, -⟩ := writeFiles_spec h
  obtain ⟨loc, led⟩ := places f hf
  have among : f ∈ files.filter fun f => s.disk.locate f.path = .ok (.location loc) :=
    List.mem_filter.mpr ⟨hf, by simpa using led⟩
  have last : lastAt s.disk files loc = some _ :=
    List.getLast?_eq_some_getLast (List.ne_nil_of_mem among)
  exact ⟨loc, _, same.locate_of led, node?_of_lastAt h last⟩

/-- **Files that have been written** and are written again leave the disk as it is. -/
theorem writeFiles_again {files : List PageFile} {s s' : Session}
    (h : (writeFiles files s).result = .ok ())
    (disk : s'.disk = (writeFiles files s).session.disk) :
    (writeFiles files s').result = .ok () ∧ (writeFiles files s').session.disk = s'.disk := by
  have there : ∀ f ∈ files, ∃ loc c, s'.disk.locate f.path = .ok (.location loc) ∧
      s'.disk.tree.node? loc = some (.file c) := by
    rw [disk]
    exact fun f hf => exists_file_of_writeFiles h hf
  obtain ⟨result, keys⟩ := writeFiles_over there
  obtain ⟨same, -, nodes⟩ := writeFiles_spec result
  have before := (writeFiles_spec h).1
  rw [← disk] at before
  have tree : (writeFiles files s').session.disk.tree = s'.disk.tree := by
    apply FileTree.eq_of_node? keys
    intro loc
    rw [nodes loc, nodeAfter, lastAt_congr before]
    cases last : lastAt s.disk files loc with
    | none => rfl
    | some f => rw [disk, node?_of_lastAt h last]
  exact ⟨result, same.eq_of_tree tree⟩

/-! ## What a command leaves on the disk -/

/-- What a command has left: its pages, in its directory and the directories it lies in. -/
structure LeavesPages (d d' : Disk) (output : Path) (b : Batch) : Prop where
  gains : d.GainsFiles d' (output.target d.cwd) (pageNames b)
  directories : ∀ loc, loc <+: output.target d.cwd → d'.tree.node? loc = some .directory
  pages : ∀ n ∈ pageNames b, ∃ c, d'.tree.node? (output.target d.cwd ++ [n]) = some (.file c)

theorem isPrefix_of_prepare {output : Path} {s s' : Session} (h : prepare output s = .ok s')
    (entered : s.disk.removed = 0) (descends : output.Descends) {loc : Location}
    (missing : s.disk.tree.node? loc = none) (made : s'.disk.tree.node? loc ≠ none) :
    loc <+: output.target s.disk.cwd := by
  unfold prepare at h
  split at h
  · cases h
    exact absurd missing made
  · have inside := Disk.isPrefix_of_createUpTo (n := output.components.length + 1) entered descends
      missing
    rw [← Disk.createDirectories] at inside
    split at h
    · next d created =>
      cases h
      rw [created] at inside
      exact inside made
    · cases h

/-- A directory that is there is not made again. -/
theorem prepare_eq_self {output : Path} {s : Session}
    (h : output.text ≠ [] → s.disk.contains output = true) : prepare output s = .ok s := by
  rw [prepare]
  by_cases there : s.disk.contains output = true
  · rw [if_pos there]
  · obtain rfl : output = ⟨[]⟩ := by
      obtain ⟨text⟩ := output
      exact congrArg Path.mk (by_contra fun some_text => there (h some_text))
    rw [if_neg there]
    rfl

section Leaves

variable {a : Build} {t : Terminal} {d d' : Disk} {found : Discovery} {s : Session}
  (entered : d.removed = 0) (descends : (outputOf a found).Descends)
  (prepared : prepare (outputOf a found) (scanned t d found) = .ok s)
  (written : (writeFiles (pageFiles a t d found) s).result = .ok ())
  (after : (writeFiles (pageFiles a t d found) s).session.disk = d')

include entered prepared written after

/-- A page is in the output directory, which is found by its path. -/
theorem page_at {n : Text} (h : n ∈ pageNames (batchOf a d found)) :
    d'.tree.node? ((outputOf a found).target d.cwd) = some .directory ∧
      (∃ c, d'.tree.node? ((outputOf a found).target d.cwd ++ [n]) = some (.file c)) ∧
      ((outputOf a found).text ≠ [] → d'.contains (outputOf a found) = true) := by
  subst after
  have same := (writeFiles_spec written).1
  have gains := prepare_spec prepared
  obtain ⟨f, hf, path⟩ := exists_mem_pageFiles (t := t) h
  obtain ⟨loc, c, led, file⟩ := exists_file_of_writeFiles written hf
  rw [path] at led
  obtain ⟨dir, rfl, there⟩ := Disk.directory_of_locate_join
    (same.removed.trans (gains.removed.trans entered)) ((isFileName_pageNames h).isName led) led
  rw [same.cwd.trans gains.cwd] at dir file there
  refine ⟨dir, ⟨c, file⟩, fun some_text => ?_⟩
  rw [Disk.contains, Disk.node_of_locate (there some_text) dir]

include descends

theorem leavesPages_writeFiles : LeavesPages d d' (outputOf a found) (batchOf a d found) := by
  obtain ⟨dir, -⟩ := page_at entered prepared written after List.mem_cons_self
  have pages := fun n hn => (page_at entered prepared written after (n := n) hn).2.1
  subst after
  obtain ⟨same, -, nodes⟩ := writeFiles_spec written
  have gains := prepare_spec prepared
  have entered' : s.disk.removed = 0 := gains.removed.trans entered
  refine ⟨⟨same.cwd.trans gains.cwd, same.removed.trans gains.removed, fun loc => ?_⟩, ?_, pages⟩
  · cases last : lastAt s.disk (pageFiles a t d found) loc with
    | none =>
      have kept := nodes loc
      rw [nodeAfter, last] at kept
      dsimp only at kept
      rw [kept]
      rcases gains.nodes loc with here | ⟨missing, made⟩
      · exact Or.inl here
      · refine Or.inr (Or.inl ⟨missing, made, ?_⟩)
        exact isPrefix_of_prepare prepared entered descends missing (by rw [made]; simp)
    | some f =>
      have file := node?_of_lastAt written last
      obtain ⟨hf, led⟩ := List.mem_filter.mp (List.mem_of_getLast? last)
      obtain ⟨n, hn, path⟩ := path_of_mem_pageFiles hf
      rw [decide_eq_true_eq, path] at led
      obtain ⟨-, here, -⟩ :=
        Disk.directory_of_locate_join entered' ((isFileName_pageNames hn).isName led) led
      rw [gains.cwd] at here
      refine Or.inr (Or.inr ⟨?_, ⟨_, file⟩, n, hn, here⟩)
      intro was
      have still := (same.directories loc).mp (gains.directory was)
      rw [file] at still
      cases still
  · rintro loc ⟨rest, whole⟩
    rw [← whole] at dir
    by_cases here : rest = []
    · rwa [here, List.append_nil] at dir
    · exact FileTree.directory_of_node? here dir

end Leaves

end MessageDocs.Command.Build
