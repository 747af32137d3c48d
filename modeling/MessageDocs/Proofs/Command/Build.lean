import MessageDocs.Command.Build
import MessageDocs.Proofs.Batch
import MessageDocs.Proofs.Disk
import MessageDocs.Proofs.Page.Ending

/-! # What the `build` command leaves on the disk

The pages are written one after the other, each over whatever is at its place. So at the place of a
page is what the last page with the same file name holds, and the index is the last file of all.

* `Build.writeFiles_spec`: what is at each location after a list of files has been written.
* `Build.HasPages`: what a disk has after a batch has been documented.
* `Build.run_of_isFinished`: a command that ran to its end has written every page.
-/

set_option autoImplicit false

namespace MessageDocs.Command.Build

/-! ## Writing one file after the other -/

/-- The last of some files whose path leads to a location. -/
def lastAt (d : Disk) (files : List PageFile) (loc : Location) : Option PageFile :=
  (files.filter fun f => d.locate f.path = .ok (.location loc)).getLast?

/-- What is at a location after some files have been written. -/
def nodeAfter (d : Disk) (files : List PageFile) (loc : Location) : Option Node :=
  match lastAt d files loc with
  | some f => some (.file (.text f.contents))
  | none => d.tree.node? loc

theorem lastAt_cons (d : Disk) (f : PageFile) (files : List PageFile) (loc : Location) :
    lastAt d (f :: files) loc =
      (lastAt d files loc).or
        (if d.locate f.path = .ok (.location loc) then some f else none) := by
  rw [lastAt, lastAt]
  by_cases here : d.locate f.path = .ok (.location loc)
  · rw [List.filter_cons_of_pos (by simp [here]), if_pos here, List.getLast?_cons]
    cases (files.filter fun f => decide (d.locate f.path = .ok (.location loc))).getLast? <;> rfl
  · rw [List.filter_cons_of_neg (by simp [here]), if_neg here, Option.or_none]

theorem lastAt_concat (d : Disk) (files : List PageFile) (f : PageFile) (loc : Location) :
    lastAt d (files ++ [f]) loc =
      if d.locate f.path = .ok (.location loc) then some f else lastAt d files loc := by
  rw [lastAt, lastAt, List.filter_append, List.getLast?_append]
  by_cases here : d.locate f.path = .ok (.location loc)
  · simp [here]
  · simp [here]

theorem lastAt_congr {d d' : Disk} (h : d.SamePlaces d') (files : List PageFile) (loc : Location) :
    lastAt d' files loc = lastAt d files loc := by
  rw [lastAt, lastAt]
  congr 1
  apply List.filter_congr
  intro f _
  rw [decide_eq_decide, h.locate_eq_ok_iff]

/-- **Files that have all been written** are where their paths lead, each under those that came
after it at the same place, and nothing else has changed. -/
theorem writeFiles_spec {files : List PageFile} {s : Session}
    (h : (writeFiles files s).result = .ok ()) :
    s.disk.SamePlaces (writeFiles files s).session.disk ∧
      (∀ f ∈ files, ∃ loc, s.disk.locate f.path = .ok (.location loc)) ∧
      ∀ loc, (writeFiles files s).session.disk.tree.node? loc = nodeAfter s.disk files loc := by
  induction files generalizing s with
  | nil => exact ⟨Disk.SamePlaces.refl _, by simp, fun _ => rfl⟩
  | cons f files ih =>
    rw [writeFiles] at h ⊢
    split at h
    · cases h
    · next d written =>
      obtain ⟨loc, led, same, nodes⟩ := Disk.write_eq_ok written
      obtain ⟨same', places, nodes'⟩ := ih h
      refine ⟨same.trans same', List.forall_mem_cons.mpr ⟨⟨loc, led⟩, ?_⟩, ?_⟩
      · intro g hg
        obtain ⟨there, led'⟩ := places g hg
        exact ⟨there, same.locate_eq_ok_iff.mp led'⟩
      · intro other
        refine (nodes' other).trans ?_
        change nodeAfter d files other = _
        rw [nodeAfter, nodeAfter, lastAt_congr same, lastAt_cons, led]
        cases lastAt s.disk files other with
        | some g => rfl
        | none =>
          rw [Option.none_or]
          dsimp only
          rw [nodes other]
          by_cases here : other = loc
          · rw [if_pos here, if_pos (by rw [here])]
          · rw [if_neg here, if_neg (by simpa using Ne.symm here)]

/-! ## Making the output directory -/

theorem prepare_spec {output : Path} {s s' : Session} (h : prepare output s = .ok s') :
    s.disk.GainsDirectories s'.disk := by
  unfold prepare at h
  split at h
  · cases h
    exact Disk.GainsDirectories.refl _
  · have gains := Disk.createUpTo_gains (output.components.length + 1) s.disk output
    rw [← Disk.createDirectories] at gains
    split at h
    · next d made =>
      cases h
      rw [made] at gains
      exact gains
    · cases h

/-! ## The pages of a batch -/

/-- The batch that a command documents. -/
def batchOf (a : Build) (d : Disk) (found : Discovery) : Batch :=
  Batch.ofFiles d (found.manifest.readOptions.withMatching a.matching) found.files

/-- The directory that a command writes to. -/
def outputOf (a : Build) (found : Discovery) : Path :=
  a.output.getD found.outputDirectory

def pageOf (t : Terminal) (output : Path) (context : Page.Context) (m : Message) : PageFile where
  path := output.join ⟨m.pageName⟩
  contents := Page.render context m
  notice := t.status "Documenting" m.name

def indexOf (output : Path) (context : Page.Context) (messages : List Message) : PageFile where
  path := output.join ⟨Page.Index.fileName⟩
  contents := Page.Index.render context messages

theorem filesOf_eq (t : Terminal) (output : Path) (context : Page.Context)
    (messages : List Message) :
    filesOf t output context messages =
      messages.map (pageOf t output context) ++ [indexOf output context messages] := rfl

/-- Whether a text can be the last segment of a path and names a file there. -/
structure IsFileName (n : Text) : Prop where
  plain : '/' ∉ n
  named : Path.Component.ofSegment? n = some (.name n)

theorem isFileName_page {name : Text} (h : '/' ∉ name) : IsFileName (name ++ ".md") := by
  refine ⟨by simp [h], ?_⟩
  have long : 2 < (name ++ (".md" : Text)).length := by
    rw [List.length_append]
    exact Nat.lt_of_lt_of_le (by decide) (Nat.le_add_left _ _)
  have notEmpty : ¬(name ++ (".md" : Text) = [] ∨ name ++ (".md" : Text) = ['.']) := by
    rintro (same | same) <;> rw [same] at long <;> simp at long
  have notUp : name ++ (".md" : Text) ≠ ['.', '.'] := by
    intro same
    rw [same] at long
    simp at long
  rw [Path.Component.ofSegment?, if_neg notEmpty, if_neg notUp]

theorem index_fileName_eq : Page.Index.fileName = ("index" : Text) ++ ".md" := by
  decide

theorem isFileName_index : IsFileName Page.Index.fileName := by
  rw [index_fileName_eq]
  exact isFileName_page (by decide)

/-- Paths of two files in one directory lead to one place just if the files have one name. -/
theorem locate_join_eq_iff {d : Disk} {output : Path} {n n' : Text} (h : IsFileName n)
    (h' : IsFileName n') {loc : Location}
    (led : d.locate (output.join ⟨n⟩) = .ok (.location loc)) :
    d.locate (output.join ⟨n'⟩) = .ok (.location loc) ↔ n' = n := by
  constructor
  · intro led'
    have last := Disk.locate_join h.plain h.named led
    rw [Disk.locate_join h'.plain h'.named led'] at last
    exact Option.some.inj last
  · rintro rfl
    exact led

section Places

variable {d : Disk} {t : Terminal} {output : Path} {context : Page.Context}
  {messages : List Message} {loc : Location}

theorem pageName_eq_index_iff (m : Message) :
    m.pageName = Page.Index.fileName ↔ m.name = "index" := by
  rw [index_fileName_eq]
  exact List.append_left_inj (".md" : Text)

/-- At the place of the index is the index. -/
theorem lastAt_index (led : d.locate (output.join ⟨Page.Index.fileName⟩) = .ok (.location loc)) :
    lastAt d (filesOf t output context messages) loc = some (indexOf output context messages) := by
  rw [filesOf_eq, lastAt_concat]
  exact if_pos led

/-- At the place of another page is the last page with its name. -/
theorem lastAt_page {name : Text} (plain : '/' ∉ name) (other : name ≠ "index")
    (names : ∀ m ∈ messages, '/' ∉ m.name)
    (led : d.locate (output.join ⟨name ++ ".md"⟩) = .ok (.location loc)) :
    lastAt d (filesOf t output context messages) loc =
      (Batch.lastNamed messages name).map (pageOf t output context) := by
  have file := isFileName_page plain
  have pages : (messages.map (pageOf t output context)).filter
        (fun f => d.locate f.path = .ok (.location loc)) =
      (messages.filter (·.name = name)).map (pageOf t output context) := by
    rw [List.filter_map]
    congr 1
    apply List.filter_congr
    intro m hm
    rw [Function.comp_apply, decide_eq_decide]
    have page := isFileName_page (names m hm)
    exact (locate_join_eq_iff file page led).trans (List.append_left_inj (".md" : Text))
  have index : ¬d.locate (indexOf output context messages).path = .ok (.location loc) := by
    intro led'
    have same := (locate_join_eq_iff file isFileName_index led).mp led'
    rw [index_fileName_eq] at same
    exact other ((List.append_left_inj (".md" : Text)).mp same).symm
  rw [filesOf_eq, lastAt_concat, if_neg index, lastAt, pages, List.getLast?_map]
  rfl

end Places

/-! ## What a batch leaves on the disk -/

/-- What a disk has after a batch has been documented in a directory. -/
structure HasPages (before after : Disk) (output : Path) (context : Page.Context) (b : Batch) :
    Prop where
  /-- The page of a message is that of the last one with its name, except where the index is. -/
  page : ∀ m ∈ b.messages, ∃ last, Batch.lastNamed b.messages m.name = some last ∧
    (after.readText (output.join ⟨m.pageName⟩) = .ok (Page.render context last) ↔
      m.name ≠ "index")
  /-- The last message with a name is the only one, unless a remark says otherwise. -/
  own : ∀ m ∈ b.messages,
    Checks.duplicateRemark m.name (b.messages.filter (·.name = m.name)) ∉ b.diagnostics.list →
      Batch.lastNamed b.messages m.name = some m
  index : after.readText (output.join ⟨Page.Index.fileName⟩) =
    .ok (Page.Index.render context b.messages)
  /-- A name that no message was read under has no page that was not there before. -/
  unwritten : ∀ name : Text, '/' ∉ name → name ≠ "index" → name ∉ b.messages.map Message.name →
    ∀ loc, after.locate (output.join ⟨name ++ ".md"⟩) = .ok (.location loc) →
      ∀ c, after.tree.node? loc = some (.file c) ↔ before.tree.node? loc = some (.file c)
  /-- Nothing but pages and the index has been written. -/
  others : ∀ loc, (∀ n ∈ Page.Index.fileName :: b.messages.map Message.pageName,
      after.locate (output.join ⟨n⟩) ≠ .ok (.location loc)) →
    ∀ c, after.tree.node? loc = some (.file c) ↔ before.tree.node? loc = some (.file c)

theorem node?_of_lastAt {files : List PageFile} {s : Session}
    (h : (writeFiles files s).result = .ok ()) {loc : Location} {f : PageFile}
    (last : lastAt s.disk files loc = some f) :
    (writeFiles files s).session.disk.tree.node? loc = some (.file (.text f.contents)) := by
  rw [(writeFiles_spec h).2.2 loc, nodeAfter, last]

theorem readText_page {t : Terminal} {output : Path} {context : Page.Context}
    {messages : List Message} {s : Session} {m last : Message}
    (h : (writeFiles (filesOf t output context messages) s).result = .ok ())
    (listed : m ∈ messages) (names : ∀ m ∈ messages, '/' ∉ m.name)
    (isLast : Batch.lastNamed messages m.name = some last) :
    (writeFiles (filesOf t output context messages) s).session.disk.readText
        (output.join ⟨m.pageName⟩) = .ok (Page.render context last) ↔ m.name ≠ "index" := by
  obtain ⟨same, places, -⟩ := writeFiles_spec h
  have written : pageOf t output context m ∈ filesOf t output context messages :=
    List.mem_append_left _ (List.mem_map_of_mem listed)
  obtain ⟨loc, led⟩ := places _ written
  change s.disk.locate (output.join ⟨m.pageName⟩) = .ok (.location loc) at led
  rw [Disk.readText_eq_ok_iff (same.locate_of led)]
  by_cases index : m.name = "index"
  · rw [(pageName_eq_index_iff m).mpr index] at led
    rw [node?_of_lastAt h (lastAt_index led)]
    refine iff_of_false ?_ (not_not.mpr index)
    simpa [indexOf] using Page.Index.render_ne_page context messages last
  · have here : lastAt s.disk (filesOf t output context messages) loc =
        (Batch.lastNamed messages m.name).map (pageOf t output context) :=
      lastAt_page (names m listed) index names led
    rw [isLast] at here
    rw [node?_of_lastAt h here]
    exact iff_of_true rfl index

theorem readText_index {t : Terminal} {output : Path} {context : Page.Context}
    {messages : List Message} {s : Session}
    (h : (writeFiles (filesOf t output context messages) s).result = .ok ()) :
    (writeFiles (filesOf t output context messages) s).session.disk.readText
        (output.join ⟨Page.Index.fileName⟩) = .ok (Page.Index.render context messages) := by
  obtain ⟨same, places, -⟩ := writeFiles_spec h
  have written : indexOf output context messages ∈ filesOf t output context messages :=
    List.mem_append_right _ (List.mem_singleton.mpr rfl)
  obtain ⟨loc, led⟩ := places _ written
  change s.disk.locate (output.join ⟨Page.Index.fileName⟩) = .ok (.location loc) at led
  rw [Disk.readText_eq_ok_iff (same.locate_of led), node?_of_lastAt h (lastAt_index led)]
  rfl

/-- Where no page and no index has its place, nothing has been written. -/
theorem node?_elsewhere {t : Terminal} {output : Path} {context : Page.Context}
    {messages : List Message} {s : Session}
    (h : (writeFiles (filesOf t output context messages) s).result = .ok ()) {loc : Location}
    (apart : ∀ n ∈ Page.Index.fileName :: messages.map Message.pageName,
      (writeFiles (filesOf t output context messages) s).session.disk.locate (output.join ⟨n⟩) ≠
        .ok (.location loc)) :
    (writeFiles (filesOf t output context messages) s).session.disk.tree.node? loc =
      s.disk.tree.node? loc := by
  obtain ⟨same, -, nodes⟩ := writeFiles_spec h
  obtain ⟨index, pages⟩ := List.forall_mem_cons.mp apart
  have none : lastAt s.disk (filesOf t output context messages) loc = none := by
    rw [lastAt, List.getLast?_eq_none_iff, List.filter_eq_nil_iff]
    intro f hf
    simp only [decide_eq_true_eq]
    rcases List.mem_append.mp hf with hf | hf
    · obtain ⟨m, hm, rfl⟩ := List.mem_map.mp hf
      exact fun led => pages m.pageName (List.mem_map_of_mem hm) (same.locate_of led)
    · rw [List.mem_singleton.mp hf]
      exact fun led => index (same.locate_of led)
  rw [nodes loc, nodeAfter, none]

theorem hasPages_writeFiles {a : Build} {t : Terminal} {d : Disk} {found : Discovery}
    {context : Page.Context} {s : Session} (gains : d.GainsDirectories s.disk)
    (h : (writeFiles (filesOf t (outputOf a found) context (batchOf a d found).messages) s).result =
      .ok ()) :
    HasPages d (writeFiles (filesOf t (outputOf a found) context (batchOf a d found).messages)
      s).session.disk (outputOf a found) context (batchOf a d found) := by
  have names : ∀ m ∈ (batchOf a d found).messages, '/' ∉ m.name := fun m hm =>
    Batch.not_mem_name hm
  refine ⟨?_, ?_, readText_index h, ?_, ?_⟩
  · intro m hm
    obtain ⟨last, isLast⟩ := Batch.exists_lastNamed hm
    exact ⟨last, isLast, readText_page h hm names isLast⟩
  · exact fun m hm => Batch.lastNamed_eq_self hm
  · intro name plain notIndex new loc led c
    rw [← gains.file_iff, node?_elsewhere h]
    have file := isFileName_page plain
    refine List.forall_mem_cons.mpr ⟨?_, ?_⟩
    · intro led'
      have same := (locate_join_eq_iff file isFileName_index led).mp led'
      rw [index_fileName_eq] at same
      exact notIndex ((List.append_left_inj (".md" : Text)).mp same).symm
    · intro n hn led'
      obtain ⟨m, hm, rfl⟩ := List.mem_map.mp hn
      have same := (locate_join_eq_iff file (isFileName_page (names m hm)) led).mp led'
      have named : m.name = name := (List.append_left_inj (".md" : Text)).mp same
      exact new (named ▸ List.mem_map_of_mem hm)
  · intro loc apart c
    rw [← gains.file_iff, node?_elsewhere h apart]

/-! ## The command -/

/-- Whether a command ran to its end: it succeeded, or only some schemas could not be read. -/
def IsFinished (e : Ended) : Prop :=
  e.result = .ok () ∨ ∃ n help,
    e.result = .error (.build
      (Text.counted n "schema file" "schema files" ++ " could not be parsed") help)

theorem not_isFinished_failed {f : Failure} (h : ∀ message help, f ≠ .build message help)
    (s : Session) : ¬IsFinished (.failed f s) := by
  rintro (ended | ⟨n, help, ended⟩)
  · cases ended
  · exact h _ _ (Except.error.inj ended)

theorem not_isFinished_emptyFailure (s : Session) : ¬IsFinished (.failed emptyFailure s) := by
  rintro (ended | ⟨n, help, ended⟩)
  · cases ended
  · have same := (Failure.build.inj (Except.error.inj ended)).1
    -- the last words alone are longer
    have lengths := congrArg List.length same
    rw [List.length_append] at lengths
    have short : ("No .msg files found" : Text).length = 19 := by decide
    have long : (" could not be parsed" : Text).length = 20 := by decide
    omega

theorem loadManifest_error {d : Disk} {p : Path} {e : Failure}
    (h : Discovery.loadManifest d p = .error e) (message : Text) (help : Option Text) :
    e ≠ .build message help := by
  unfold Discovery.loadManifest at h
  split at h
  · cases h
    simp
  · unfold Manifest.ofText at h
    split at h
    · cases h
    · split at h
      · cases h
      · cases h
        simp [Manifest.invalid]

theorem ofInputs_error {d : Disk} {paths : List Path} {e : Failure}
    (h : Discovery.ofInputs d paths = .error e) (message : Text) (help : Option Text) :
    e ≠ .build message help := by
  unfold Discovery.ofInputs at h
  split at h
  · unfold Discovery.ofProject at h
    dsimp only at h
    split at h
    · split at h
      · next failed =>
        cases h
        exact loadManifest_error failed message help
      · cases h
    · cases h
  · unfold Discovery.ofPaths at h
    split at h
    · cases h
      simp [Discovery.lostDirectory]
    · unfold Discovery.ofAbsolute at h
      split at h
      · split at h
        · next failed =>
          cases h
          exact loadManifest_error failed message help
        · cases h
      · cases h

theorem prepare_error {output : Path} {s s' : Session} {e : Failure}
    (h : prepare output s = .failed e s') (message : Text) (help : Option Text) :
    e ≠ .build message help := by
  unfold prepare at h
  split at h
  · cases h
  · split at h
    · cases h
    · cases h
      simp

theorem writeFiles_error {files : List PageFile} {s s' : Session} {e : Failure}
    (h : writeFiles files s = .failed e s') (message : Text) (help : Option Text) :
    e ≠ .build message help := by
  induction files generalizing s with
  | nil => cases h
  | cons f files ih =>
    rw [writeFiles] at h
    split at h
    · cases h
      simp
    · exact ih h

theorem conclude_disk (t : Terminal) (output : Path) (b : Batch) (s : Session) :
    (conclude t output b s).session.disk = s.disk := by
  unfold conclude
  dsimp only
  split <;> rfl

/-- The files that a command writes. -/
def pageFiles (a : Build) (t : Terminal) (d : Disk) (found : Discovery) : List PageFile :=
  filesOf t (outputOf a found) (contextOf a found (batchOf a d found)) (batchOf a d found).messages

/-- The session of a command that has found schemas, before it makes its directory. -/
def scanned (t : Terminal) (d : Disk) (found : Discovery) : Session :=
  { disk := d, err := scanningLine t d found }

/-- **What a command does** that runs to its end: it finds files, makes its directory and writes
every page. -/
theorem run_eq_conclude {a : Build} {t : Terminal} {d : Disk} {found : Discovery} {s : Session}
    (discovered : Discovery.ofInputs d a.paths = .ok found) (some_files : found.files ≠ [])
    (prepared : prepare (outputOf a found) (scanned t d found) = .ok s)
    (written : (writeFiles (pageFiles a t d found) s).result = .ok ()) :
    run a t d = conclude t (outputOf a found) (batchOf a d found)
      (writeFiles (pageFiles a t d found) s).session := by
  rw [run, discovered]
  dsimp only
  rw [if_neg some_files]
  split
  · next failed => cases prepared.symm.trans failed
  · next made =>
    obtain rfl := (Ended.mk.inj (prepared.symm.trans made)).2
    split
    · next failed => cases written.symm.trans (congrArg Ended.result failed)
    · next ended =>
      exact congrArg (conclude t (outputOf a found) (batchOf a d found))
        (congrArg Ended.session ended).symm

theorem exists_prepared_of_isFinished {a : Build} {t : Terminal} {d : Disk}
    (h : IsFinished (run a t d)) :
    ∃ found s, Discovery.ofInputs d a.paths = .ok found ∧ found.files ≠ [] ∧
      prepare (outputOf a found) (scanned t d found) = .ok s ∧
      (writeFiles (pageFiles a t d found) s).result = .ok () := by
  unfold run at h
  split at h
  · next failed => exact absurd h (not_isFinished_failed (ofInputs_error failed) _)
  · next found discovered =>
    split at h
    · exact absurd h (not_isFinished_emptyFailure _)
    · next some_files =>
      dsimp only at h
      split at h
      · next e s failed => exact absurd h (not_isFinished_failed (prepare_error failed) _)
      · next s prepared =>
        split at h
        · next e s' failed => exact absurd h (not_isFinished_failed (writeFiles_error failed) _)
        · next s' written =>
          exact ⟨found, s, discovered, some_files, prepared, congrArg Ended.result written⟩

/-- A command that ran to its end has found files, made its directory and written every page. -/
theorem run_of_isFinished {a : Build} {t : Terminal} {d : Disk} (h : IsFinished (run a t d)) :
    ∃ found s, Discovery.ofInputs d a.paths = .ok found ∧ d.GainsDirectories s.disk ∧
      (writeFiles (pageFiles a t d found) s).result = .ok () ∧
      (run a t d).session.disk = (writeFiles (pageFiles a t d found) s).session.disk := by
  obtain ⟨found, s, discovered, some_files, prepared, written⟩ := exists_prepared_of_isFinished h
  refine ⟨found, s, discovered, prepare_spec prepared, written, ?_⟩
  rw [run_eq_conclude discovered some_files prepared written, conclude_disk]

/-- **A command that ran to its end** has left the pages of its batch. -/
theorem hasPages_of_isFinished {a : Build} {t : Terminal} {d : Disk} (h : IsFinished (run a t d)) :
    ∃ found, Discovery.ofInputs d a.paths = .ok found ∧
      HasPages d (run a t d).session.disk (outputOf a found)
        (contextOf a found (batchOf a d found)) (batchOf a d found) := by
  obtain ⟨found, s, discovered, gains, written, disk_eq⟩ := run_of_isFinished h
  refine ⟨found, discovered, ?_⟩
  rw [disk_eq]
  exact hasPages_writeFiles gains written

/-- A disk with one schema in its root, which is the working directory. -/
def soleSchema (name source : Text) : Disk where
  tree := (FileTree.empty.putFile [name] (.text source)).getD FileTree.empty
  cwd := []

theorem hasPages_soleSchema :
    IsFinished (run {} {} (soleSchema "A.msg" "u8 y")) ∧
      ∃ found, Discovery.ofInputs (soleSchema "A.msg" "u8 y") [] = .ok found ∧
        HasPages (soleSchema "A.msg" "u8 y") (run {} {} (soleSchema "A.msg" "u8 y")).session.disk
          (outputOf {} found) (contextOf {} found (batchOf {} (soleSchema "A.msg" "u8 y") found))
          (batchOf {} (soleSchema "A.msg" "u8 y") found) := by
  have finished : IsFinished (run {} {} (soleSchema "A.msg" "u8 y")) :=
    Or.inl (by decide +kernel)
  exact ⟨finished, hasPages_of_isFinished finished⟩

/-- A message named like the index has no page: the index is written over it. -/
theorem index_over_page :
    IsFinished (run {} {} (soleSchema "index.msg" "u8 y")) ∧
      ∃ found, Discovery.ofInputs (soleSchema "index.msg" "u8 y") [] = .ok found ∧
        ∃ m ∈ (batchOf {} (soleSchema "index.msg" "u8 y") found).messages,
          Batch.lastNamed (batchOf {} (soleSchema "index.msg" "u8 y") found).messages m.name =
            some m ∧
          (run {} {} (soleSchema "index.msg" "u8 y")).session.disk.readText
              ((outputOf {} found).join ⟨m.pageName⟩) ≠
            .ok (Page.render
              (contextOf {} found (batchOf {} (soleSchema "index.msg" "u8 y") found)) m) := by
  have finished : IsFinished (run {} {} (soleSchema "index.msg" "u8 y")) :=
    Or.inl (by decide +kernel)
  have lost : (Discovery.ofInputs (soleSchema "index.msg" "u8 y") []).toOption.any (fun found =>
      ∃ m ∈ (batchOf {} (soleSchema "index.msg" "u8 y") found).messages,
        Batch.lastNamed (batchOf {} (soleSchema "index.msg" "u8 y") found).messages m.name =
            some m ∧
          (run {} {} (soleSchema "index.msg" "u8 y")).session.disk.readText
              ((outputOf {} found).join ⟨m.pageName⟩) ≠
            .ok (Page.render
              (contextOf {} found (batchOf {} (soleSchema "index.msg" "u8 y") found)) m)) =
      true := by
    decide +kernel
  cases discovered : Discovery.ofInputs (soleSchema "index.msg" "u8 y") [] with
  | error e =>
    rw [discovered] at lost
    cases lost
  | ok found =>
    rw [discovered] at lost
    exact ⟨finished, found, rfl, of_decide_eq_true lost⟩

end MessageDocs.Command.Build
