import MessageDocs.Command.Init
import MessageDocs.Proofs.Text.Words
import MessageDocs.Proofs.Yaml.Block

/-! # Reading a manifest that has been written

The manifest that is written for some source directories is read back with these directories, as
long as each of them is quotable. The text goes through three readers, and each has its lemma: the
tokens of the text, the events of the tokens and the entries of the events.

* `Manifest.ofText_manifestText`: what is read of a written manifest.
* `Manifest.ofText_of_not_isAllowed`: a directory that spoils it.
-/

set_option autoImplicit false

namespace MessageDocs

open Yaml Command.Init

/-! ## Tokens -/

namespace Yaml.Scan

def entryTokens (dirs : List Text) : List Token :=
  dirs.flatMap fun dir => [.blockEntry, .scalar false dir]

theorem leads_sourceLines {dirs : List Text} (quotable : ∀ dir ∈ dirs, Quotable dir)
    {outer : List Nat} {tokens : List Token} {k : Option KeyStart} {c : Cursor} {tail : Text}
    (fuel : ∀ dir ∈ dirs, dir.length + 1 < c.bound) (past : IsPast k c)
    (rest : c.rest = '\n' :: ((dirs.map sourceLine).flatten ++ tail)) :
    ∃ c' k', c'.rest = '\n' :: tail ∧ c'.bound = c.bound ∧ IsPast k' c' ∧
      Leads (2 * dirs.length) (inBlock 3 outer false k tokens c)
        (inBlock 3 outer false k' ((entryTokens dirs).reverse ++ tokens) c') := by
  induction dirs generalizing tokens k c with
  | nil => exact ⟨c, k, rest, rfl, past, rfl⟩
  | cons dir dirs ih =>
    obtain ⟨quotable_dir, quotable⟩ := List.forall_mem_cons.mp quotable
    obtain ⟨fuel_dir, fuel⟩ := List.forall_mem_cons.mp fuel
    have line : c.rest = '\n' :: ' ' :: ' ' :: '-' :: ' ' :: '"' ::
        (dir ++ '"' :: '\n' :: ((dirs.map sourceLine).flatten ++ tail)) := by
      rw [rest]
      unfold sourceLine
      simp
    obtain ⟨c₁, k₁, rest₁, bound₁, past₁, leads₁⟩ :=
      @leads_quotedEntry outer tokens c _ k dir quotable_dir fuel_dir past line
    obtain ⟨c₂, k₂, rest₂, bound₂, past₂, leads₂⟩ :=
      @ih quotable (.scalar false dir :: .blockEntry :: tokens) k₁ c₁ (bound₁ ▸ fuel) past₁ rest₁
    refine ⟨c₂, k₂, rest₂, bound₂.trans bound₁, past₂, ?_⟩
    have count : 2 * (dir :: dirs).length = 2 + 2 * dirs.length := by
      rw [List.length_cons]
      omega
    have written : (entryTokens (dir :: dirs)).reverse ++ tokens =
        (entryTokens dirs).reverse ++ (.scalar false dir :: .blockEntry :: tokens) := by
      simp [entryTokens]
    rw [count, written]
    exact leads₁.trans leads₂

theorem run_congr {s s' : Scan} (h : step s = step s') (n : Nat) : run n s = run n s' := by
  cases n with
  | zero => rfl
  | succ n => rw [run, run, h]

/-- The lines after the sources, with the end of the last source. -/
def settings : Text :=
  "output: docs/msg\n" ++ "enum_matching: prefix\n"

def settingsTokens : List Token :=
  [.blockEnd, .key, .scalar true "output", .value, .scalar true "docs/msg", .key,
    .scalar true "enum_matching", .value, .scalar true "prefix", .blockEnd, .streamEnd]

theorem run_settings {k : Option KeyStart} {tokens : List Token} {c : Cursor} (fuel : 1 < c.bound)
    (past : IsPast k c) (rest : c.rest = '\n' :: settings) (n : Nat) :
    (run (7 + n) (inBlock 3 [1, 0] false k tokens c)).map Scan.tokens =
      some (settingsTokens.reverse ++ tokens) := by
  have next_rest := Cursor.rest_nextLine rest
  have next_column := Cursor.column_nextLine rest
  have ends : step (inBlock 3 [1, 0] false k tokens c) =
      step (inBlock 1 [0] true none (.blockEnd :: tokens) c.nextLine) := by
    have begins : BeginsToken settings := beginsToken_of_isLower rfl _
    rw [@step_line 3 [1, 0] tokens c settings false k 0 fuel past begins rest]
    exact step_dedent begins next_column next_rest
  have fuel' : 1 < c.nextLine.bound := by
    rw [Cursor.bound_nextLine rest]
    exact fuel
  obtain ⟨c₁, rest₁, column₁, bound₁, leads₁⟩ :=
    @leads_wordEntry [0] (.blockEnd :: tokens) c.nextLine "output" "enum_matching: prefix\n"
      "docs/msg" rfl (by decide) rfl (by rintro d ⟨⟩; decide) next_column fuel' next_rest
  obtain ⟨c₂, rest₂, -, -, leads₂⟩ :=
    @leads_wordEntry [0] _ c₁ "enum_matching" [] "prefix"
      rfl (by decide) rfl (by rintro d ⟨⟩) column₁ (bound₁ ▸ fuel') rest₁
  have count : 7 + n = 3 + 3 + (n + 1) := by omega
  rw [run_congr ends, count, (leads₁.trans leads₂).run_eq, run_end rest₂ n]
  rfl

theorem length_sourceLine (dir : Text) : (sourceLine dir).length = dir.length + 7 := by
  unfold sourceLine
  simp

theorem length_sourceLines (dirs : List Text) :
    2 * dirs.length ≤ (dirs.map sourceLine).flatten.length := by
  induction dirs with
  | nil => exact Nat.le_refl 0
  | cons dir dirs ih =>
    rw [List.map_cons, List.flatten_cons, List.length_append, List.length_cons, length_sourceLine]
    omega

theorem length_le_sourceLines {dirs : List Text} {dir : Text} (h : dir ∈ dirs) :
    dir.length ≤ (dirs.map sourceLine).flatten.length := by
  have inside := (List.sublist_flatten_of_mem (List.mem_map_of_mem (f := sourceLine) h)).length_le
  rw [length_sourceLine] at inside
  omega

end Yaml.Scan

/-- The text of a manifest with some sources. -/
def sourcesText (dirs : List Text) : Text :=
  "sources:\n" ++ ((dirs.map sourceLine).flatten ++ Yaml.Scan.settings)

def sourcesTokens (dirs : List Text) : List Token :=
  [.blockMappingStart, .key, .scalar true "sources", .value, .blockSequenceStart] ++
    (Yaml.Scan.entryTokens dirs ++ Yaml.Scan.settingsTokens)

theorem all_isAllowed_sourcesText {dirs : List Text} (quotable : ∀ dir ∈ dirs, Quotable dir) :
    (sourcesText dirs).all isAllowed = true := by
  have line : ∀ dir ∈ dirs, (sourceLine dir).all isAllowed = true := by
    intro dir hd
    have inside : dir.all isAllowed = true :=
      List.all_eq_true.mpr fun c hc => (isQuotable_iff.mp (quotable dir hd c hc)).1
    have marks : ("  - \"" : Text).all isAllowed = true ∧ ("\"\n" : Text).all isAllowed = true := by
      decide +kernel
    unfold sourceLine
    simp only [List.all_append, inside, marks, Bool.and_self]
  have lines : (dirs.map sourceLine).flatten.all isAllowed = true := by
    rw [List.all_flatten, List.all_map]
    exact List.all_eq_true.mpr line
  have words : ("sources:\n" : Text).all isAllowed = true ∧
      Yaml.Scan.settings.all isAllowed = true := by
    decide +kernel
  unfold sourcesText
  simp only [List.all_append, lines, words, Bool.and_self]

open Yaml.Scan in
theorem tokens_sourcesText {dirs : List Text} (some_dir : dirs ≠ [])
    (quotable : ∀ dir ∈ dirs, Quotable dir) :
    Token.ofText? (sourcesText dirs) = some (sourcesTokens dirs) := by
  have allowed := all_isAllowed_sourcesText quotable
  have length : (sourcesText dirs).length = 9 + (dirs.map sourceLine).flatten.length + 39 := by
    have words : ("sources:\n" : Text).length = 9 ∧ settings.length = 39 := by decide +kernel
    unfold sourcesText
    simp only [List.length_append, words]
    omega
  have long : ∀ d ∈ dirs, d.length + 1 < (sourcesText dirs).length + 1 := by
    intro d hd
    have := length_le_sourceLines hd
    omega
  have steps : 2 * dirs.length + 10 ≤ (sourcesText dirs).length := by
    have := length_sourceLines dirs
    omega
  obtain ⟨dir, more, rfl⟩ := List.exists_cons_of_ne_nil some_dir
  obtain ⟨quotable_dir, quotable⟩ := List.forall_mem_cons.mp quotable
  obtain ⟨long_dir, long⟩ := List.forall_mem_cons.mp long
  have rest : (Cursor.ofText (sourcesText (dir :: more))).rest =
      ("sources" : Text) ++ ':' :: '\n' :: ' ' :: ' ' :: '-' :: ' ' :: '"' ::
        (dir ++ '"' :: '\n' :: ((more.map sourceLine).flatten ++ settings)) := by
    change sourcesText (dir :: more) = _
    unfold sourcesText
    rw [List.map_cons, List.flatten_cons]
    unfold sourceLine
    simp
  have key := @leads_firstKey [] [] _ "sources" _ rfl (by decide) rfl rfl (Nat.succ_pos _) rest
  have after := Cursor.rest_advance_of_append_cons rest
  obtain ⟨c₁, k₁, rest₁, bound₁, past₁, leads₁⟩ :=
    @leads_firstEntry [0] [.value, .scalar true "sources", .key, .blockMappingStart] _ _ none dir
      quotable_dir long_dir (isPast_none _) after
  obtain ⟨c₂, k₂, rest₂, bound₂, past₂, leads₂⟩ :=
    @leads_sourceLines more quotable [1, 0] _ k₁ c₁ settings (bound₁ ▸ long) past₁ rest₁
  have leads := (key.trans leads₁).trans leads₂
  obtain ⟨n, count⟩ : ∃ n, (sourcesText (dir :: more)).length + 1 =
      2 + 2 + 2 * more.length + (7 + n) := by
    rw [List.length_cons] at steps
    exact ⟨(sourcesText (dir :: more)).length + 1 - (2 + 2 + 2 * more.length + 7), by omega⟩
  have fuel : 1 < c₂.bound := by
    rw [bound₂, bound₁]
    exact Nat.lt_of_le_of_lt (Nat.le_add_left 1 _) long_dir
  rw [Token.ofText?, if_pos allowed, count]
  change (run _ (inBlock 0 [] true none [] _)).map (List.reverse ∘ Scan.tokens) = _
  rw [leads.run_eq, ← Option.map_map, run_settings fuel past₂ rest₂]
  simp [sourcesTokens, entryTokens]

/-! ## Events -/

def quotedEvent (dir : Text) : Event :=
  .scalar none none false dir

def wordEvent (w : Text) : Event :=
  .scalar none none true w

def sourcesEvents (dirs : List Text) : List Event :=
  [.mappingStart none none, wordEvent "sources", .sequenceStart none none] ++
    (dirs.map quotedEvent ++ [.sequenceEnd, wordEvent "output", wordEvent "docs/msg",
      wordEvent "enum_matching", wordEvent "prefix", .mappingEnd])

theorem run_entryTokens (dirs : List Text) (n : Nat) (tail : List Token) (goals : List Goal)
    (events : List Event) (handles : List (Text × Tag)) :
    Events.run (2 * dirs.length + n)
        ⟨Yaml.Scan.entryTokens dirs ++ tail, .blockEntries :: goals, events, handles⟩ =
      Events.run n
        ⟨tail, .blockEntries :: goals, (dirs.map quotedEvent).reverse ++ events, handles⟩ := by
  induction dirs generalizing events with
  | nil =>
    rw [List.length_nil, Nat.mul_zero, Nat.zero_add]
    rfl
  | cons dir dirs ih =>
    have count : 2 * (dir :: dirs).length + n = 2 * dirs.length + n + 1 + 1 := by
      rw [List.length_cons]
      omega
    have entry : Events.run (2 * dirs.length + n + 1 + 1)
          ⟨Yaml.Scan.entryTokens (dir :: dirs) ++ tail, .blockEntries :: goals, events, handles⟩ =
        Events.run (2 * dirs.length + n)
          ⟨Yaml.Scan.entryTokens dirs ++ tail, .blockEntries :: goals, quotedEvent dir :: events,
            handles⟩ := rfl
    rw [count, entry, ih]
    simp

theorem run_wordEntry (key value : Text) (n : Nat) (tail : List Token) (goals : List Goal)
    (events : List Event) (handles : List (Text × Tag)) :
    Events.run (n + 4)
        ⟨.key :: .scalar true key :: .value :: .scalar true value :: tail, .blockKey :: goals,
          events, handles⟩ =
      Events.run n
        ⟨tail, .blockKey :: goals, wordEvent value :: wordEvent key :: events, handles⟩ := rfl

/-- The tokens of a mapping that opens with a sequence. -/
theorem run_firstKey (key : Text) (n : Nat) (tail : List Token) (handles : List (Text × Tag)) :
    Events.run (n + 4)
        ⟨.blockMappingStart :: .key :: .scalar true key :: .value :: .blockSequenceStart :: tail,
          [.node true false], [], handles⟩ =
      Events.run n
        ⟨.blockSequenceStart :: tail, [.node true true, .blockKey],
          [wordEvent key, .mappingStart none none], handles⟩ := rfl

theorem length_entryTokens (dirs : List Text) :
    (Yaml.Scan.entryTokens dirs).length = 2 * dirs.length := by
  induction dirs with
  | nil => rfl
  | cons dir dirs ih =>
    change (Yaml.Scan.entryTokens dirs).length + 1 + 1 = _
    rw [ih, List.length_cons]
    omega

theorem run_settingsTokens (n : Nat) (events : List Event) (handles : List (Text × Tag)) :
    Events.run (n + 1 + 1 + 4 + 4 + 1)
        ⟨Yaml.Scan.settingsTokens, [.blockEntries, .blockKey], events, handles⟩ =
      some ⟨[.streamEnd], [], .mappingEnd :: wordEvent "prefix" :: wordEvent "enum_matching" ::
        wordEvent "docs/msg" :: wordEvent "output" :: .sequenceEnd :: events, handles⟩ := by
  change Events.run (n + 1 + 1 + 4 + 4)
    ⟨.key :: .scalar true "output" :: .value :: .scalar true "docs/msg" :: .key ::
      .scalar true "enum_matching" :: .value :: .scalar true "prefix" :: [.blockEnd, .streamEnd],
      [.blockKey], .sequenceEnd :: events, handles⟩ = _
  rw [run_wordEntry, run_wordEntry]
  rfl

theorem events_sourcesTokens (dirs : List Text) :
    Events.ofTokens? (sourcesTokens dirs) = some (sourcesEvents dirs) := by
  obtain ⟨n, count⟩ : ∃ n, 8 * (sourcesTokens dirs).length + 8 =
      2 * dirs.length + (n + 1 + 1 + 4 + 4 + 1) + 1 + 4 := by
    have length : (sourcesTokens dirs).length = 5 + (2 * dirs.length + 11) := by
      rw [sourcesTokens, List.length_append, List.length_append, length_entryTokens]
      rfl
    exact ⟨8 * (sourcesTokens dirs).length + 8 - (2 * dirs.length + 16), by omega⟩
  have start : Events.ofTokens? (sourcesTokens dirs) =
      Events.ofContent? standardHandles (sourcesTokens dirs) := rfl
  have opened : ∀ m, Events.run (m + 1 + 4)
        ⟨sourcesTokens dirs, [.node true false], [], standardHandles⟩ =
      Events.run m ⟨Yaml.Scan.entryTokens dirs ++ Yaml.Scan.settingsTokens,
        [.blockEntries, .blockKey], [.sequenceStart none none, wordEvent "sources",
          .mappingStart none none], standardHandles⟩ :=
    fun m => run_firstKey "sources" (m + 1) _ standardHandles
  rw [start, Events.ofContent?, count, opened, run_entryTokens, run_settingsTokens]
  simp [sourcesEvents, Events.isFinished]

/-! ## Entries -/

def quotedItem (dir : Text) : Item :=
  .scalar none false dir

def wordItem (w : Text) : Item :=
  .scalar none true w

def settingsItems : List Item :=
  [.sequenceEnd, wordItem "output", wordItem "docs/msg", wordItem "enum_matching",
    wordItem "prefix", .mappingEnd]

def sourcesDocument (dirs : List Text) : Document where
  items := [.mappingStart none, wordItem "sources", .sequenceStart none] ++
    (dirs.map quotedItem ++ settingsItems)

/-- The item of an event that neither sets an anchor nor stands for one. -/
def bareItem? : Event → Option Item
  | .scalar none tag plain text => some (.scalar tag plain text)
  | .sequenceStart none tag => some (.sequenceStart tag)
  | .sequenceEnd => some .sequenceEnd
  | .mappingStart none tag => some (.mappingStart tag)
  | .mappingEnd => some .mappingEnd
  | _ => none

theorem add_of_bareItem {e : Event} {i : Item} (h : bareItem? e = some i)
    (b : Document.Binding) : b.add e = some (b.push i) := by
  unfold bareItem? at h
  split at h
  all_goals first | exact (Option.some.inj h) ▸ rfl | cases h

/-- Where no anchors are set, the items are those of the events. -/
theorem foldlM_add {events : List Event} {items : List Item}
    (h : events.map bareItem? = items.map some) (b : Document.Binding) :
    events.foldlM Document.Binding.add b =
      some { b with items := items.reverse ++ b.items, position := b.position + items.length } := by
  induction events generalizing items b with
  | nil =>
    obtain rfl := List.map_eq_nil_iff.mp h.symm
    rfl
  | cons e events ih =>
    cases items with
    | nil => cases h
    | cons i items =>
      obtain ⟨here, rest⟩ := List.cons.inj h
      rw [List.foldlM_cons, add_of_bareItem here, Option.bind_eq_bind, Option.bind_some, ih rest]
      simp [Document.Binding.push, Nat.add_assoc, Nat.add_comm 1]

theorem document_sourcesEvents (dirs : List Text) :
    Document.ofEvents? (sourcesEvents dirs) = some (sourcesDocument dirs) := by
  have bare : (sourcesEvents dirs).map bareItem? = (sourcesDocument dirs).items.map some := by
    rw [sourcesEvents, sourcesDocument, settingsItems]
    simp [bareItem?, wordEvent, wordItem, quotedItem, quotedEvent]
  rw [Document.ofEvents?, foldlM_add bare, Option.map_some]
  simp [sourcesDocument]

theorem skip_quotedItems (dirs : List Text) (tail : List Item) :
    Document.skip 1 (dirs.map quotedItem ++ .sequenceEnd :: tail) = tail := by
  induction dirs with
  | nil => rfl
  | cons dir dirs ih => exact ih

theorem textsFrom?_quotedItem (d : Document) (dir : Text) (items : List Item) :
    d.textsFrom? (quotedItem dir :: items) = (d.textsFrom? items).map (dir :: ·) := by
  rw [quotedItem, Document.textsFrom?.eq_def]
  dsimp only
  cases d.textsFrom? items <;> rfl

theorem textsFrom?_quotedItems (d : Document) (dirs : List Text) (tail : List Item) :
    d.textsFrom? (dirs.map quotedItem ++ .sequenceEnd :: tail) = some dirs := by
  induction dirs with
  | nil => rfl
  | cons dir dirs ih =>
    rw [List.map_cons, List.cons_append, textsFrom?_quotedItem, ih, Option.map_some]

def sourcesEntries (dirs : List Text) : List (Text × List Item) :=
  [("sources", .sequenceStart none :: (dirs.map quotedItem ++ settingsItems)),
    ("output", settingsItems.drop 2), ("enum_matching", settingsItems.drop 4)]

theorem entriesFrom?_word (d : Document) (n : Nat) (w : Text) (items : List Item) :
    d.entriesFrom? (n + 1) (wordItem w :: items) =
      (d.entriesFrom? n (Document.skip 0 items)).map ((w, items) :: ·) := by
  rw [wordItem, Document.entriesFrom?.eq_def]
  dsimp only
  cases d.entriesFrom? n (Document.skip 0 items) <;> rfl

theorem entries_sourcesDocument (dirs : List Text) :
    (sourcesDocument dirs).entries? (sourcesDocument dirs).items = some (sourcesEntries dirs) := by
  obtain ⟨n, count⟩ : ∃ n, (wordItem "sources" :: .sequenceStart none ::
      (dirs.map quotedItem ++ settingsItems)).length = n + 1 + 1 + 1 + 1 :=
    ⟨dirs.length + 4, by simp [settingsItems]⟩
  have skipped : Document.skip 0 (.sequenceStart none :: (dirs.map quotedItem ++ settingsItems)) =
      settingsItems.drop 1 := skip_quotedItems dirs _
  change (sourcesDocument dirs).entriesFrom? (wordItem "sources" :: .sequenceStart none ::
    (dirs.map quotedItem ++ settingsItems)).length (wordItem "sources" :: .sequenceStart none ::
    (dirs.map quotedItem ++ settingsItems)) = _
  rw [count, entriesFrom?_word, skipped]
  change Option.map _ ((sourcesDocument dirs).entriesFrom? _ (wordItem "output" ::
    wordItem "docs/msg" :: [wordItem "enum_matching", wordItem "prefix", .mappingEnd])) = _
  rw [entriesFrom?_word]
  change Option.map _ (Option.map _ ((sourcesDocument dirs).entriesFrom? _
    (wordItem "enum_matching" :: [wordItem "prefix", .mappingEnd]))) = _
  rw [entriesFrom?_word]
  rfl

namespace Manifest

theorem ofDocument_sources (dirs : List Text) :
    ofDocument? (sourcesDocument dirs) = some { sources := dirs } := by
  have distinct : ((sourcesEntries dirs).map Prod.fst).any (fun key => keys.contains key &&
      decide (1 < ((sourcesEntries dirs).map Prod.fst).count key)) = false := by
    have names : (sourcesEntries dirs).map Prod.fst =
        [("sources" : Text), ("output" : Text), ("enum_matching" : Text)] := rfl
    rw [names]
    decide +kernel
  have sources : entry (sourcesEntries dirs) "sources" [] (sourcesDocument dirs).texts? =
      some dirs := textsFrom?_quotedItems _ dirs _
  have output : entry (sourcesEntries dirs) "output" ("docs/msg" : Text)
      (sourcesDocument dirs).text? = some ("docs/msg" : Text) := rfl
  have matching : entry (sourcesEntries dirs) "enum_matching" .byPrefix
      (matching? (sourcesDocument dirs)) = some .byPrefix := by
    have word : Matching.ofWord? "prefix" = some .byPrefix := by decide +kernel
    exact word
  have excludes : entry (sourcesEntries dirs) "excludes" [] (sourcesDocument dirs).texts? =
      some [] := rfl
  have units : entry (sourcesEntries dirs) "extra_units" [] (sourcesDocument dirs).texts? =
      some [] := rfl
  have url : entry (sourcesEntries dirs) "source_url" none (sourcesDocument dirs).optionalText? =
      some none := rfl
  have title : entry (sourcesEntries dirs) "title" none (sourcesDocument dirs).optionalText? =
      some none := rfl
  rw [ofDocument?, entries_sourcesDocument, Option.bind_some, ofEntries?, distinct, sources, output,
    matching, excludes, units, url, title]
  rfl

theorem trim_sourcesText (dirs : List Text) : Text.trim (sourcesText dirs) ≠ [] := by
  intro none
  rw [Text.trim, Text.trimStart_eq_self (by rintro c ⟨⟩; decide), Text.trimEnd, Text.dropTail,
    List.reverse_eq_nil_iff, List.dropWhile_eq_nil_iff] at none
  have blank := none 's' (List.mem_reverse.mpr List.mem_cons_self)
  cases blank

theorem ofText_sourcesText {dirs : List Text} (some_dir : dirs ≠ [])
    (quotable : ∀ dir ∈ dirs, Quotable dir) :
    ofText (sourcesText dirs) = .ok { sources := dirs } := by
  have document : Document.ofText? (sourcesText dirs) = some (sourcesDocument dirs) := by
    rw [Document.ofText?, Event.ofText?, tokens_sourcesText some_dir quotable, Option.bind_some,
      events_sourcesTokens, Option.bind_some, document_sourcesEvents]
  rw [ofText, if_neg (trim_sourcesText dirs), document, Option.bind_some, ofDocument_sources]

/-- The directory itself needs no list of sources. -/
theorem ofText_settings : ofText Yaml.Scan.settings = .ok {} := by
  decide +kernel

theorem manifestText_of_all {dirs : List Text} (h : dirs.all (· = ['.']) = true) :
    manifestText dirs = Yaml.Scan.settings := by
  unfold manifestText sourcesPart
  rw [if_pos h]
  rfl

theorem manifestText_of_not_all {dirs : List Text} (h : dirs.all (· = ['.']) = false) :
    manifestText dirs = sourcesText dirs := by
  unfold manifestText sourcesPart sourcesText
  rw [if_neg (by rw [h]; exact Bool.false_ne_true), List.append_assoc, List.append_assoc]
  rfl

/-- What the manifest for some directories says, none of them where they are no more than the
directory itself. -/
def ofSources (dirs : List Text) : Manifest where
  sources := if dirs.all (· = ['.']) then [] else dirs

/-- **The manifest for some directories** is read back with them as its sources. -/
theorem ofText_manifestText {dirs : List Text} (quotable : ∀ dir ∈ dirs, Quotable dir) :
    ofText (manifestText dirs) = .ok (ofSources dirs) := by
  rw [ofSources]
  cases all : dirs.all (· = ['.']) with
  | true =>
    rw [manifestText_of_all all]
    exact ofText_settings
  | false =>
    have some_dir : dirs ≠ [] := by
      rintro rfl
      cases all
    rw [manifestText_of_not_all all]
    exact ofText_sourcesText some_dir quotable

/-- **A character that no manifest may contain** spoils the manifest for the directories. -/
theorem ofText_of_not_isAllowed {dirs : List Text} {dir : Text} (hd : dir ∈ dirs) {c : Char}
    (hc : c ∈ dir) (bad : isAllowed c = false) : ofText (manifestText dirs) = .error invalid := by
  have notAll : dirs.all (· = ['.']) = false := by
    rw [List.all_eq_false]
    refine ⟨dir, hd, ?_⟩
    rw [decide_eq_true_eq]
    rintro rfl
    rw [List.mem_singleton.mp hc] at bad
    cases bad
  have inside : c ∈ sourcesText dirs := by
    have line : c ∈ sourceLine dir := by
      unfold sourceLine
      exact List.mem_append_left _ (List.mem_append_right _ hc)
    have lines := List.mem_flatten_of_mem (List.mem_map_of_mem (f := sourceLine) hd) line
    unfold sourcesText
    exact List.mem_append_right _ (List.mem_append_left _ lines)
  have refused : (sourcesText dirs).all isAllowed = false :=
    List.all_eq_false.mpr ⟨c, inside, by rw [bad]; exact Bool.false_ne_true⟩
  have none : Document.ofText? (sourcesText dirs) = none := by
    rw [Document.ofText?, Event.ofText?, Token.ofText?, refused]
    rfl
  rw [manifestText_of_not_all notAll, ofText, if_neg (trim_sourcesText dirs), none]
  rfl

end Manifest

end MessageDocs
