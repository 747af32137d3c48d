import MessageDocs.Proofs.Command.Pages

/-! # The `build` command, run again

A command leaves nothing on the disk but its pages and the directories they lie in. So the same
command run again finds what it found, writes what it wrote and leaves everything as it is. Only a
directory can be taken for what it is not: one with the name of the manifest, where there is none,
keeps the next command from running.

* `Build.Clashes`: when a directory is taken for the manifest.
* `Build.exists_ofInputs_again` and `Build.batchOf_again`: what is found and read again.
* `Build.rebuild_spec`: the command, run again.
-/

set_option autoImplicit false

namespace MessageDocs

theorem Session.eq_of_parts {s s' : Session} (disk : s'.disk = s.disk) (out : s'.out = s.out)
    (err : s'.err = s.err) : s' = s := by
  cases s
  cases s'
  cases disk
  cases out
  cases err
  rfl

end MessageDocs

namespace MessageDocs.Command.Build

open MessageDocs.Path

/-! ## What a command discovers again -/

/-- A command whose paths never lead up: those that are given, the sources and the output. -/
structure NeverUp (a : Build) (found : Discovery) : Prop where
  paths : ∀ p ∈ a.paths, p.Descends
  sources : ∀ s ∈ found.manifest.effectiveSources, (⟨s⟩ : Path).Descends
  output : (a.output.getD found.manifest.output).Descends

instance (a : Build) (found : Discovery) : Decidable (NeverUp a found) :=
  decidable_of_iff
    ((∀ p ∈ a.paths, p.Descends) ∧
      (∀ s ∈ found.manifest.effectiveSources, (⟨s⟩ : Path).Descends) ∧
      (a.output.getD found.manifest.output).Descends)
    ⟨fun ⟨paths, sources, output⟩ => ⟨paths, sources, output⟩,
    fun h => ⟨h.paths, h.sources, h.output⟩⟩

/-- The paths at which a command looks for schemas. -/
def searchedPaths (a : Build) (d : Disk) (found : Discovery) : List Path :=
  if a.paths = [] then found.manifest.effectiveSources.map (Discovery.sourceDirectory found)
  else a.paths.map (Discovery.given d)

/-- Whether a directory on the way to the output takes the place of a manifest that is missing. -/
def Clashes (a : Build) (d : Disk) (found : Discovery) : Prop :=
  a.paths = [] ∧ d.contains (Discovery.manifestAt ⟨"."⟩) = false ∧
    d.cwd ++ [Manifest.fileName] <+: (outputOf a found).target d.cwd

instance (a : Build) (d : Disk) (found : Discovery) : Decidable (Clashes a d found) :=
  inferInstanceAs (Decidable (_ ∧ _ ∧ _))

section Again

variable {a : Build} {t : Terminal} {d d' : Disk} {found : Discovery}

/-- Without a manifest and sources nothing is found in a directory that has been removed. -/
theorem ofProject_of_removed (gone : d.removed ≠ 0) :
    Discovery.ofProject d ⟨"."⟩ = .ok { root := ⟨"."⟩ } := by
  obtain ⟨tree, cwd, removed⟩ := d
  obtain ⟨k, rfl⟩ := Nat.exists_eq_succ_of_ne_zero gone
  rfl

theorem removed_eq_zero_of_isFinished (h : IsFinished (run a t d)) : d.removed = 0 := by
  by_contra gone
  obtain ⟨found, s, discovered, some_files, -⟩ := exists_prepared_of_isFinished h
  rw [Discovery.ofInputs] at discovered
  split at discovered
  · rw [ofProject_of_removed gone] at discovered
    obtain rfl := Except.ok.inj discovered
    exact some_files rfl
  · exact gone (Discovery.entered_of_ofPaths discovered)

section Here

variable (entered : d.removed = 0) (dir : d.tree.node? d.cwd = some .directory)

include entered dir

theorem locate_manifest_here : d.locate (Discovery.manifestAt ⟨"."⟩) =
    .ok (.location (d.cwd ++ [Manifest.fileName])) := by
  refine (Disk.follow_eq_ok_iff entered).mpr ⟨by decide, by decide, by decide, _, ?_, rfl⟩
  change Disk.walk d.tree d.cwd [['.'], Manifest.fileName] = _
  rw [Disk.walk, dir]
  change Disk.walk d.tree d.cwd [Manifest.fileName] = _
  rw [Disk.walk, dir]
  rfl

theorem contains_manifest_here_iff : d.contains (Discovery.manifestAt ⟨"."⟩) = true ↔
    d.tree.node? (d.cwd ++ [Manifest.fileName]) ≠ none := by
  rw [Disk.contains, Disk.node, locate_manifest_here entered dir]
  dsimp only
  cases d.tree.node? (d.cwd ++ [Manifest.fileName]) <;> simp

/-- A directory with the name of the manifest keeps every command from running. -/
theorem not_isFinished_of_directory (paths : a.paths = [])
    (clash : d.tree.node? (d.cwd ++ [Manifest.fileName]) = some .directory) :
    ¬IsFinished (run a t d) := by
  have led := locate_manifest_here entered dir
  have there : d.contains (Discovery.manifestAt ⟨"."⟩) = true :=
    (contains_manifest_here_iff entered dir).mpr (by rw [clash]; simp)
  have refused : ∃ e, Discovery.ofInputs d a.paths = .error e := by
    rw [Discovery.ofInputs, if_pos paths, Discovery.ofProject_of_contains there,
      Discovery.loadManifest, Disk.readText, Disk.node_of_locate led clash]
    exact ⟨_, rfl⟩
  obtain ⟨e, failed⟩ := refused
  rw [run, failed]
  exact not_isFinished_failed (ofInputs_error failed) _

end Here

variable (dir : d.tree.node? d.cwd = some .directory)
  (discovered : Discovery.ofInputs d a.paths = .ok found) (never : NeverUp a found)

include dir discovered never

theorem descends_root (manifest : found.hasManifest = true) : found.root.Descends := by
  rw [Discovery.ofInputs] at discovered
  split at discovered
  · rw [(Discovery.ofProject_eq_ok discovered).1]
    decide
  · obtain ⟨p, hp, above⟩ := ((Discovery.ofPaths_eq_ok discovered).2 manifest).above
    have given := Discovery.descends_given dir (never.paths p hp)
    exact given.of_mem_ancestors (Discovery.isAbsolute_given d p) above

theorem descends_output : (outputOf a found).Descends := by
  have output := never.output
  rw [outputOf]
  cases asked : a.output with
  | some o =>
    rw [asked] at output
    exact output
  | none =>
    rw [asked, Option.getD_none] at output
    rw [Option.getD_none, Discovery.outputDirectory]
    split
    · next manifest => exact (descends_root dir discovered never manifest).join output
    · exact output

theorem isListed_of_mem_files {f : SchemaFile} (hf : f ∈ found.files) :
    Discovery.IsListed d f := by
  rw [Discovery.ofInputs] at discovered
  split at discovered
  · obtain ⟨root, files⟩ := Discovery.ofProject_eq_ok discovered
    rw [files] at hf
    obtain ⟨_, listed, hf⟩ := List.mem_flatten.mp hf
    obtain ⟨s, hs, rfl⟩ := List.mem_map.mp listed
    have here : found.root.Descends := by
      rw [root]
      decide
    exact Discovery.isListed_of_mem_directory (here.join (never.sources s hs)) hf
  · obtain ⟨files, project⟩ := Discovery.ofPaths_eq_ok discovered
    rw [files] at hf
    obtain ⟨_, listed, hf⟩ := List.mem_flatten.mp hf
    obtain ⟨p, hp, rfl⟩ := List.mem_map.mp listed
    exact Discovery.isListed_of_mem_filesAt (Discovery.isAbsolute_given d p)
      (fun _ => Discovery.isAbsolute_of_mem_anchorsOf project)
      (Discovery.descends_given dir (never.paths p hp)) hf

variable {output : Location} {names : List Text} (entered : d.removed = 0)
  (gains : d.GainsFiles d' output names) (foreign : AreForeign names)

include entered gains foreign

/-- **The same schemas** are discovered again, unless a manifest seems to have come. -/
theorem exists_ofInputs_again
    (room : ∀ p ∈ searchedPaths a d found, LeavesRoom d output p)
    (same : a.paths = [] → d'.contains (Discovery.manifestAt ⟨"."⟩) =
      d.contains (Discovery.manifestAt ⟨"."⟩)) :
    ∃ root, Discovery.ofInputs d' a.paths = .ok { found with root := root } ∧
      (found.hasManifest = true ∨ a.paths = [] → root = found.root) := by
  rw [searchedPaths] at room
  rw [Discovery.ofInputs] at discovered ⊢
  by_cases given : a.paths = []
  · rw [if_pos given] at discovered room ⊢
    refine ⟨found.root, ?_, fun _ => rfl⟩
    exact Discovery.ofProject_congr gains foreign entered discovered (by decide) never.sources
      (fun s hs => room _ (List.mem_map_of_mem hs)) (same given)
  · rw [if_neg given] at discovered room ⊢
    obtain ⟨root, again, kept⟩ := Discovery.exists_ofPaths_congr gains foreign entered discovered
      (fun p hp => Discovery.descends_given dir (never.paths p hp))
      (fun p hp => room _ (List.mem_map_of_mem hp))
    exact ⟨root, again, fun h => kept (h.resolve_right given)⟩

/-- **The same batch** is read again. -/
theorem batchOf_again (root : Path) :
    batchOf a d' { found with root := root } = batchOf a d found :=
  Batch.ofFiles_eq_of_readText _ fun _ hf =>
    Discovery.readText_congr gains foreign entered (isListed_of_mem_files dir discovered never hf)

end Again

/-! ## The command, run again -/

theorem prepare_report {output : Path} {s s' : Session} (h : prepare output s = .ok s') :
    s'.out = s.out ∧ s'.err = s.err := by
  unfold prepare at h
  split at h
  · cases h
    exact ⟨rfl, rfl⟩
  · split at h <;> cases h
    exact ⟨rfl, rfl⟩

theorem writeFiles_report {files : List PageFile} {s : Session}
    (h : (writeFiles files s).result = .ok ()) :
    (writeFiles files s).session.out = s.out ∧
      (writeFiles files s).session.err = s.err ++ (files.map PageFile.notice).flatten := by
  induction files generalizing s with
  | nil => exact ⟨rfl, (List.append_nil _).symm⟩
  | cons f files ih =>
    rw [writeFiles] at h ⊢
    split at h
    · cases h
    · obtain ⟨out, err⟩ := ih h
      refine ⟨out, err.trans ?_⟩
      rw [Session.report, List.map_cons, List.flatten_cons, List.append_assoc]

theorem conclude_result (t : Terminal) (output : Path) (b : Batch) (s s' : Session) :
    (conclude t output b s).result = (conclude t output b s').result := by
  unfold conclude
  dsimp only
  split <;> rfl

section Rebuild

variable {a : Build} {t : Terminal} {d d' : Disk} {found : Discovery}

theorem outputOf_again {root : Path} (kept : found.hasManifest = true → root = found.root) :
    outputOf a { found with root := root } = outputOf a found := by
  rw [outputOf, outputOf, Discovery.outputDirectory, Discovery.outputDirectory]
  dsimp only
  by_cases manifest : found.hasManifest = true
  · rw [kept manifest]
  · rw [if_neg manifest, if_neg manifest]

theorem contains_manifest_again {b : Batch} (entered : d.removed = 0)
    (dir : d.tree.node? d.cwd = some .directory)
    (pages : LeavesPages d d' (outputOf a found) b) (paths : a.paths = [])
    (apart : ¬Clashes a d found) :
    d'.contains (Discovery.manifestAt ⟨"."⟩) = d.contains (Discovery.manifestAt ⟨"."⟩) := by
  have gains := pages.gains
  have dir' : d'.tree.node? d'.cwd = some .directory := by
    rw [gains.cwd]
    exact gains.directory dir
  rw [Bool.eq_iff_iff, contains_manifest_here_iff (gains.removed.trans entered) dir', gains.cwd]
  rcases gains.nodes (d.cwd ++ [Manifest.fileName]) with same | ⟨missing, -, above⟩ | ⟨-, -, page⟩
  · rw [contains_manifest_here_iff entered dir, same]
  · refine absurd ⟨paths, ?_, above⟩ apart
    rw [Bool.eq_false_iff, ne_eq, contains_manifest_here_iff entered dir]
    exact not_not.mpr missing
  · obtain ⟨n, hn, here⟩ := page
    have last : (d.cwd ++ [Manifest.fileName]).getLast? = some Manifest.fileName :=
      List.getLast?_concat
    have other := (areForeign_pageNames b).other_of_manifest last n hn
    rw [here] at other
    exact absurd List.getLast?_concat other

section Second

variable {s : Session} (entered : d.removed = 0) (dir : d.tree.node? d.cwd = some .directory)
  (discovered : Discovery.ofInputs d a.paths = .ok found) (never : NeverUp a found)
  (some_files : found.files ≠ [])
  (prepared : prepare (outputOf a found) (scanned t d found) = .ok s)
  (written : (writeFiles (pageFiles a t d found) s).result = .ok ())
  (after : (writeFiles (pageFiles a t d found) s).session.disk = d')

include entered dir discovered never some_files prepared written after

/-- What the command does on the disk that it has left: it finds the same schemas and writes the
same files over themselves. -/
theorem exists_second_run
    (room : ∀ p ∈ searchedPaths a d found, LeavesRoom d ((outputOf a found).target d.cwd) p)
    (apart : ¬Clashes a d found) :
    ∃ root, (found.hasManifest = true ∨ a.paths = [] → root = found.root) ∧
      (writeFiles (pageFiles a t d found) (scanned t d' { found with root := root })).result =
        .ok () ∧
      (writeFiles (pageFiles a t d found)
        (scanned t d' { found with root := root })).session.disk = d' ∧
      run a t d' = conclude t (outputOf a found) (batchOf a d found)
        (writeFiles (pageFiles a t d found)
          (scanned t d' { found with root := root })).session := by
  have pages := leavesPages_writeFiles entered (descends_output dir discovered never) prepared
    written after
  have foreign := areForeign_pageNames (batchOf a d found)
  obtain ⟨root, discovered', kept⟩ := exists_ofInputs_again dir discovered never entered
    pages.gains foreign room fun paths => contains_manifest_again entered dir pages paths apart
  have output' := outputOf_again (a := a) fun manifest => kept (Or.inl manifest)
  have batch' := batchOf_again dir discovered never entered pages.gains foreign root
  have files' : pageFiles a t d' { found with root := root } = pageFiles a t d found := by
    rw [pageFiles, pageFiles, output', batch']
    rfl
  obtain ⟨-, -, there⟩ := page_at entered prepared written after List.mem_cons_self
  have prepared' : prepare (outputOf a { found with root := root })
      (scanned t d' { found with root := root }) =
        .ok (scanned t d' { found with root := root }) := by
    rw [output']
    exact prepare_eq_self there
  obtain ⟨written', still⟩ : (writeFiles (pageFiles a t d found)
      (scanned t d' { found with root := root })).result = .ok () ∧ _ :=
    writeFiles_again written after.symm
  refine ⟨root, kept, written', still, ?_⟩
  rw [run_eq_conclude discovered' some_files prepared' (by rw [files']; exact written'), files',
    output', batch']

end Second

variable (sound : d.IsSound) (finished : IsFinished (run a t d))
  (discovered : Discovery.ofInputs d a.paths = .ok found) (never : NeverUp a found)

include sound finished discovered never

theorem leavesPages_of_isFinished :
    LeavesPages d (run a t d).session.disk (outputOf a found) (batchOf a d found) := by
  have entered := removed_eq_zero_of_isFinished finished
  have descends := descends_output (sound.entered entered) discovered never
  obtain ⟨found', s, discovered', some_files, prepared, written⟩ :=
    exists_prepared_of_isFinished finished
  rw [discovered] at discovered'
  obtain rfl := Except.ok.inj discovered'
  rw [run_eq_conclude discovered some_files prepared written, conclude_disk]
  exact leavesPages_writeFiles entered descends prepared written rfl

/-- **A command that does not clash** with its manifest does again what it did. -/
theorem run_again
    (room : ∀ p ∈ searchedPaths a d found, LeavesRoom d ((outputOf a found).target d.cwd) p)
    (apart : ¬Clashes a d found) :
    (run a t (run a t d).session.disk).result = (run a t d).result ∧
      (run a t (run a t d).session.disk).session.disk = (run a t d).session.disk ∧
      (found.hasManifest = true ∨ a.paths = [] →
        run a t (run a t d).session.disk = run a t d) := by
  have entered := removed_eq_zero_of_isFinished finished
  obtain ⟨found', s, discovered', some_files, prepared, written⟩ :=
    exists_prepared_of_isFinished finished
  rw [discovered] at discovered'
  obtain rfl := Except.ok.inj discovered'
  have first := run_eq_conclude discovered some_files prepared written
  have disk : (writeFiles (pageFiles a t d found) s).session.disk = (run a t d).session.disk := by
    rw [first, conclude_disk]
  obtain ⟨root, kept, written', still, second⟩ := exists_second_run entered
    (sound.entered entered) discovered never some_files prepared written disk room apart
  have gains := (leavesPages_of_isFinished sound finished discovered never).gains
  refine ⟨?_, ?_, fun known => ?_⟩
  · rw [second, first]
    exact conclude_result t _ _ _ _
  · rw [second, conclude_disk, still]
  · obtain rfl := kept known
    obtain ⟨out, err⟩ := writeFiles_report written
    obtain ⟨out', err'⟩ := writeFiles_report written'
    obtain ⟨prepared_out, prepared_err⟩ := prepare_report prepared
    have line : scanningLine t (run a t d).session.disk found = scanningLine t d found := by
      rw [scanningLine, scanningLine, Disk.display, Disk.display, Disk.cwdPath?, Disk.cwdPath?,
        gains.cwd, gains.removed]
    have same : (writeFiles (pageFiles a t d found)
        (scanned t (run a t d).session.disk found)).session =
          (writeFiles (pageFiles a t d found) s).session := by
      refine Session.eq_of_parts (still.trans disk.symm) ?_ ?_
      · rw [out, out', prepared_out]
        rfl
      · rw [err, err', prepared_err, scanned, scanned, line]
    exact second.trans (same ▸ first.symm)

/-- **A command touches nothing but its pages, and can be run again.** What is left on the disk are
the pages of the batch, the output directory and the directories it lies in; every schema file and
every manifest is as it was. The same command run again ends as it did and changes nothing, wherever
its output lies, unless the output or a directory around it has taken the place of the manifest that
is looked for in the working directory. It also reports the same, unless the paths it was given have
no manifest. For this no directory that has been made may be taken for a schema, because of a path
to it that is too long. -/
theorem rebuild_spec :
    LeavesPages d (run a t d).session.disk (outputOf a found) (batchOf a d found) ∧
      (∀ loc name c, loc.getLast? = some name →
        (cutExtension name).2 = some Scan.schemaExtension ∨ name = Manifest.fileName →
        ((run a t d).session.disk.tree.node? loc = some (.file c) ↔
          d.tree.node? loc = some (.file c))) ∧
      ((∀ p ∈ searchedPaths a d found, LeavesRoom d ((outputOf a found).target d.cwd) p) →
        ((run a t (run a t d).session.disk).result = (run a t d).result ∧
          (run a t (run a t d).session.disk).session.disk = (run a t d).session.disk ↔
            ¬Clashes a d found) ∧
        (¬Clashes a d found → found.hasManifest = true ∨ a.paths = [] →
          run a t (run a t d).session.disk = run a t d)) := by
  have pages := leavesPages_of_isFinished sound finished discovered never
  have foreign := areForeign_pageNames (batchOf a d found)
  refine ⟨pages, ?_, fun room => ⟨⟨?_, ?_⟩, ?_⟩⟩
  · rintro loc name c last (schema | rfl)
    · exact pages.gains.file_iff (foreign.other_of_schema ⟨name, last, schema⟩)
    · exact pages.gains.file_iff (foreign.other_of_manifest last)
  · rintro ⟨same, -⟩ ⟨paths, -, above⟩
    -- The manifest's place is now a directory, and cannot be read.
    have entered := removed_eq_zero_of_isFinished finished
    have dir := pages.gains.directory (sound.entered entered)
    have clash := pages.directories _ above
    rw [← pages.gains.cwd] at dir clash
    apply not_isFinished_of_directory (t := t) (pages.gains.removed.trans entered) dir paths clash
    rwa [IsFinished, same]
  · intro apart
    obtain ⟨result, disk, -⟩ := run_again sound finished discovered never room apart
    exact ⟨result, disk⟩
  · exact fun apart => (run_again sound finished discovered never room apart).2.2

end Rebuild

theorem soleSchema_rebuilt :
    (soleSchema "A.msg" "u8 y").IsSound ∧ IsFinished (run {} {} (soleSchema "A.msg" "u8 y")) ∧
      ∃ found, Discovery.ofInputs (soleSchema "A.msg" "u8 y") [] = .ok found ∧
        NeverUp {} found ∧
        (∀ p ∈ searchedPaths {} (soleSchema "A.msg" "u8 y") found,
          LeavesRoom (soleSchema "A.msg" "u8 y") ((outputOf {} found).target []) p) ∧
        ¬Clashes {} (soleSchema "A.msg" "u8 y") found ∧
        run {} {} (run {} {} (soleSchema "A.msg" "u8 y")).session.disk =
          run {} {} (soleSchema "A.msg" "u8 y") := by
  have sound : (soleSchema "A.msg" "u8 y").IsSound := by decide +kernel
  have finished : IsFinished (run {} {} (soleSchema "A.msg" "u8 y")) :=
    Or.inl (by decide +kernel)
  obtain ⟨found, discovered, never, names, apart⟩ : ∃ found,
      Discovery.ofInputs (soleSchema "A.msg" "u8 y") [] = .ok found ∧ NeverUp {} found ∧
      (∀ n ∈ (outputOf {} found).target [],
        IsName n ∧ (cutExtension n).2 ≠ some Scan.schemaExtension) ∧
      ¬Clashes {} (soleSchema "A.msg" "u8 y") found :=
    Discovery.exists_ok_of_any (by decide +kernel)
  have room : ∀ p ∈ searchedPaths {} (soleSchema "A.msg" "u8 y") found,
      LeavesRoom (soleSchema "A.msg" "u8 y") ((outputOf {} found).target []) p :=
    fun _ _ => leavesRoom_of_names names
  obtain ⟨-, -, again⟩ := rebuild_spec (t := {}) sound finished discovered never
  exact ⟨sound, finished, found, discovered, never, room, apart,
    (again room).2 apart (Or.inr rfl)⟩

/-- Pages that are written to a directory with the name of the manifest: the same command run again
takes the directory for the manifest, and fails. -/
theorem output_taken_for_manifest :
    (run { output := some ⟨"msgdoc.yaml"⟩ } {} (soleSchema "A.msg" "u8 y")).result = .ok () ∧
      (run { output := some ⟨"msgdoc.yaml"⟩ } {}
        (run { output := some ⟨"msgdoc.yaml"⟩ } {}
          (soleSchema "A.msg" "u8 y")).session.disk).result =
        .error (.access ⟨"./msgdoc.yaml"⟩
          ("Failed to read manifest: " ++ AccessError.isDirectory.message)) := by
  decide +kernel

end MessageDocs.Command.Build
