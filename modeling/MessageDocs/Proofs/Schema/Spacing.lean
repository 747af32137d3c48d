import Mathlib.Data.List.DropRight
import MessageDocs.Proofs.Path.Components
import MessageDocs.Proofs.Schema.Layout
import MessageDocs.Proofs.Schema.Reading
import MessageDocs.Proofs.Text.Lines
import MessageDocs.Proofs.Text.Words

/-! # White space only separates words

A schema is read by the words on its lines. How they are set apart, how a line ends and whether
blank lines follow the last one, plays no part; only the stored source is what was written.

* `Schema.wordsByLine`: the words of each line up to the last line that has some.
* `Schema.readLines_append_blanks` and `Layout.ofLines_append_blanks`: blank lines at the end.
* `Schema.readInto_congr_words`: a reading depends on the words only.
* `Schema.spacing_irrelevant`: a source and what remains when its lines are tidied up.
-/

set_option autoImplicit false

namespace MessageDocs

/-! ## Words of lines -/

namespace Text

theorem words_dropReturn (line : Text) : words (dropReturn line) = words line := by
  rw [dropReturn]
  split
  · next returned =>
    obtain ⟨before, rfl⟩ := List.getLast?_eq_some_iff.mp returned
    have blank : ∀ c ∈ ['\r'], isSpace c = true := List.forall_mem_singleton.mpr rfl
    rw [List.dropLast_concat, words_append_blank blank]
  · rfl

theorem words_collapse (t : Text) : words (collapse t) = words t :=
  words_join fun _ hw => isWord_of_mem_words hw

end Text

namespace Schema

/-- The words on each line of a source, up to the last line with words. -/
def wordsByLine (source : Text) : List (List Text) :=
  ((Text.lines source).map Text.words).rdropWhile (· = [])

/-- A source with one blank between the words of each line, and a line feed between its lines. -/
def tidied (source : Text) : Text :=
  Text.join "\n" (collapsedLines source)

/-- Neither carriage returns nor a line feed at the end make a difference to the words. -/
theorem wordsByLine_eq_split (source : Text) :
    wordsByLine source =
      ((Text.split (· == '\n') source).map Text.words).rdropWhile (· = []) := by
  obtain ⟨ended, last, pieces⟩ :
      ∃ ended last, Text.split (· == '\n') source = ended ++ [last] :=
    ⟨_, _, (List.dropLast_concat_getLast (Text.split_ne_nil _ source)).symm⟩
  have returns : (ended.map Text.dropReturn).map Text.words = ended.map Text.words := by
    rw [List.map_map]
    exact List.map_congr_left fun line _ => Text.words_dropReturn line
  rw [wordsByLine, Text.lines_eq_of_split pieces, pieces, List.map_append, List.map_append, returns]
  by_cases open_end : last = []
  · have none : Text.words last = [] := by rw [open_end]; rfl
    rw [if_pos open_end, List.map_singleton, none, List.rdropWhile_concat_pos _ _ _ (by simp),
      List.map_nil, List.append_nil]
  · rw [if_neg open_end]

theorem wordsByLine_tidied (source : Text) : wordsByLine (tidied source) = wordsByLine source := by
  have words : (collapsedLines source).map Text.words = (Text.lines source).map Text.words := by
    rw [collapsedLines, List.map_map]
    exact List.map_congr_left fun line _ => Text.words_collapse line
  have feed : ∀ line ∈ collapsedLines source, '\n' ∉ line := by
    intro line hl
    obtain ⟨line, -, rfl⟩ := List.mem_map.mp hl
    exact (Text.collapsed_collapse line).toIsSpaced.not_mem (by decide) (by decide)
  rw [wordsByLine_eq_split, wordsByLine, ← words, tidied]
  by_cases none : collapsedLines source = []
  · rw [none]
    decide
  · have cut : Text.split (· == '\n') (Text.join "\n" (collapsedLines source)) =
        collapsedLines source := Text.split_join feed none
    rw [cut]

/-- The lines as they are read: a line for each list of words, and blank ones after them. -/
theorem exists_collapsedLines (source : Text) :
    ∃ n, collapsedLines source =
      (wordsByLine source).map (Text.join " ") ++ List.replicate n [] := by
  have cut : wordsByLine source ++ ((Text.lines source).map Text.words).rtakeWhile (· = []) =
      (Text.lines source).map Text.words := List.rdropWhile_append_rtakeWhile
  refine ⟨(((Text.lines source).map Text.words).rtakeWhile (· = [])).length, ?_⟩
  have blank : (((Text.lines source).map Text.words).rtakeWhile (· = [])).map (Text.join " ") =
      List.replicate (((Text.lines source).map Text.words).rtakeWhile (· = [])).length [] := by
    rw [List.eq_replicate_iff, List.length_map]
    refine ⟨rfl, fun line hl => ?_⟩
    obtain ⟨words, hw, rfl⟩ := List.mem_map.mp hl
    have none : words = [] := by simpa using List.mem_rtakeWhile_imp hw
    rw [none]
    rfl
  rw [← blank, ← List.map_append, cut, List.map_map]
  rfl

/-! ## Blank lines at the end -/

theorem isBlank_of_mem_numberFrom_replicate {n k : Nat} {l : NumberedLine}
    (h : l ∈ NumberedLine.numberFrom n (List.replicate k [])) : l.isBlank = true := by
  have text := List.eq_of_mem_replicate (text_mem_of_mem_numberFrom h)
  rw [NumberedLine.isBlank, text]
  rfl

theorem isComment_of_isBlank {l : NumberedLine} (h : l.isBlank = true) : l.isComment = false := by
  rw [NumberedLine.isComment, List.isEmpty_iff.mp h]
  rfl

/-- Blank lines after all others are part of the body, if there is anything before them. -/
theorem Layout.ofLines_append_blanks (lines : List NumberedLine) {blanks : List NumberedLine}
    (h : ∀ l ∈ blanks, l.isBlank = true) :
    (ofLines (lines ++ blanks)).header = (ofLines lines).header ∧
      ∃ rest, (∀ l ∈ rest, l.isBlank = true) ∧
        (ofLines (lines ++ blanks)).body = (ofLines lines).body ++ rest := by
  have noComment : ∀ l ∈ blanks, l.isComment = false := fun l hl => isComment_of_isBlank (h l hl)
  have taken := takeWhile_eq_nil noComment
  have left : blanks.dropWhile NumberedLine.isComment = blanks := by
    have := @List.takeWhile_append_dropWhile _ NumberedLine.isComment blanks
    rwa [taken, List.nil_append] at this
  rw [ofLines, ofLines]
  dsimp only
  rw [List.dropWhile_append]
  split
  · next none =>
    rw [List.isEmpty_iff.mp none, List.dropWhile_eq_nil_iff.mpr h]
    exact ⟨rfl, [], by simp, rfl⟩
  · rw [List.takeWhile_append, List.dropWhile_append, taken, left, List.append_nil]
    constructor
    · split
      · next all => rw [(List.takeWhile_prefix _).eq_of_length all]
      · rfl
    · refine ⟨blanks, h, ?_⟩
      split
      · next none => rw [List.isEmpty_iff.mp none, List.nil_append]
      · rfl

variable {options : ReadOptions} {path : Path}

theorem readLine_of_isBlank {l : NumberedLine} (h : l.isBlank = true) (d : Draft)
    (ds : Diagnostics) : readLine options path l d ds = (.ok d, ds) := by
  have blank : BodyLine.ofText l.text = .blank := by
    rw [List.isEmpty_iff.mp h]
    rfl
  rw [readLine, blank]

theorem readLines_append_blanks (lines : List NumberedLine) {blanks : List NumberedLine}
    (h : ∀ l ∈ blanks, l.isBlank = true) (d : Draft) (ds : Diagnostics) :
    readLines options path (lines ++ blanks) d ds = readLines options path lines d ds := by
  induction lines generalizing d ds with
  | nil =>
    rw [List.nil_append, readLines]
    induction blanks with
    | nil => rfl
    | cons l blanks ih =>
      obtain ⟨blank, rest⟩ := List.forall_mem_cons.mp h
      rw [readLines, readLine_of_isBlank blank]
      exact ih rest
  | cons l lines ih =>
    rw [List.cons_append, readLines, readLines]
    split
    · exact ih _ _
    · rfl

/-! ## The stored source -/

/-- A step's result with another source stored in the draft. -/
def storing (source : Text) (step : Except Failure Draft × Diagnostics) :
    Except Failure Draft × Diagnostics :=
  (step.1.map fun d => { d with source := source }, step.2)

/-- No line depends on the source that is stored. -/
theorem readLine_storing (source : Text) (l : NumberedLine) (d : Draft) (ds : Diagnostics) :
    readLine options path l { d with source := source } ds =
      storing source (readLine options path l d ds) := by
  unfold readLine
  cases BodyLine.ofText l.text with
  | blank | topics | comment => rfl
  | declaration text =>
    dsimp only
    unfold readDeclaration
    cases Declaration.classify text with
    | error e => rfl
    | ok declaration =>
      cases declaration with
      | constant typeName name value comment =>
        dsimp only
        rw [addConstant, addConstant, Draft.addConstant, Draft.addConstant]
        dsimp only
        cases Roster.find? Constant.name d.constants name <;> rfl
      | field typeName name comment =>
        dsimp only
        cases Metadata.read comment with
        | error e => rfl
        | ok metadata =>
          dsimp only
          rw [addField, addField, Draft.addField, Draft.addField, Draft.declareEnums_eq,
            Draft.declareEnums_eq]
          dsimp only
          cases Roster.find? Field.name d.fields
            (fieldOf l.number typeName name metadata).name <;> rfl

theorem readLines_storing (source : Text) (lines : List NumberedLine) (d : Draft)
    (ds : Diagnostics) :
    readLines options path lines { d with source := source } ds =
      storing source (readLines options path lines d ds) := by
  induction lines generalizing d ds with
  | nil => rfl
  | cons l lines ih =>
    rw [readLines, readLines, readLine_storing]
    rcases readLine options path l d ds with ⟨result, remarks⟩
    cases result with
    | error e => rfl
    | ok d => exact ih d remarks

/-! ## Readings -/

/-- The result of a reading, with another source stored in the message. -/
def resourced (source : Text) (reading : Except Failure Message × Diagnostics) :
    Except Failure Message × Diagnostics :=
  (reading.1.map fun m => { m with source := source }, reading.2)

theorem finish_storing (d : Draft) (header : Header) (claims : Text → Text → Bool)
    (source : Text) :
    Draft.finish { d with header := header, source := source } claims =
      { Draft.finish { d with header := header } claims with source := source } := rfl

/-- No remark on a message depends on the source that is stored. -/
theorem checks_resourced (m : Message) (source : Text) :
    Checks.message { m with source := source } = Checks.message m := rfl

theorem exists_layout (source : Text) :
    (Layout.ofSource source).header = (Layout.ofLines (NumberedLine.numberFrom 1
      ((wordsByLine source).map (Text.join " ")))).header ∧
      ∃ rest, (∀ l ∈ rest, l.isBlank = true) ∧
        (Layout.ofSource source).body = (Layout.ofLines (NumberedLine.numberFrom 1
          ((wordsByLine source).map (Text.join " ")))).body ++ rest := by
  obtain ⟨n, lines⟩ := exists_collapsedLines source
  rw [Layout.ofSource, lines, numberFrom_append]
  exact Layout.ofLines_append_blanks _ fun l hl => isBlank_of_mem_numberFrom_replicate hl

/-- **A reading depends on the words** of each line, apart from the source that is stored. -/
theorem readInto_congr_words {source other : Text} (h : wordsByLine source = wordsByLine other)
    (options : ReadOptions) (path : Path) (ds : Diagnostics) :
    readInto options path other ds = resourced other (readInto options path source ds) := by
  obtain ⟨header, rest, blank, body⟩ := exists_layout source
  obtain ⟨header', rest', blank', body'⟩ := exists_layout other
  have lines := @readLines_storing options path other
    (Layout.ofLines (NumberedLine.numberFrom 1 ((wordsByLine source).map (Text.join " ")))).body
    { path := path, source := source } ds
  unfold readInto
  dsimp only
  rw [header, header', body, body', ← h, readLines_append_blanks _ blank,
    readLines_append_blanks _ blank', lines]
  rcases readLines options path _ _ ds with ⟨result, remarks⟩
  cases result with
  | error e => rfl
  | ok d =>
    dsimp only [storing, resourced, Except.map]
    rw [finish_storing, checks_resourced]

/-- **White space does not matter.** What is left of a source when its lines are tidied up is read
as the source is, with the same message or failure and the same remarks at the same lines, and so
is every source with the same words on each of its lines. -/
theorem spacing_irrelevant :
    (∀ (options : ReadOptions) (path : Path) (source : Text) (ds : Diagnostics),
      readInto options path (tidied source) ds =
        resourced (tidied source) (readInto options path source ds)) ∧
    ∀ (options : ReadOptions) (path : Path) (source other : Text) (ds : Diagnostics),
      wordsByLine source = wordsByLine other →
        readInto options path other ds = resourced other (readInto options path source ds) :=
  ⟨fun options path source ds =>
    readInto_congr_words (wordsByLine_tidied source).symm options path ds,
  fun options path _ _ ds h => readInto_congr_words h options path ds⟩

/-- A schema with carriage returns, tabs and other white space, and blank lines at its end. -/
def ragged : Text :=
  "\t#\tShort.\r\n\r\n uint8\u00a0\u2003x  # [knots]\tA \r\n# odd\r\n \r\n\n\t"

theorem ragged_reads_alike :
    tidied ragged = ("# Short.\n\nuint8 x # [knots] A\n# odd\n\n\n" : Text) ∧
      wordsByLine ragged = wordsByLine "# Short.\n\nuint8 x # [knots] A\n# odd" ∧
      (∃ m, (readInto {} ⟨"A.msg"⟩ ragged {}).1 = .ok m) ∧
      (readInto {} ⟨"A.msg"⟩ ragged {}).2.list.length = 2 ∧
      readInto {} ⟨"A.msg"⟩ "# Short.\n\nuint8 x # [knots] A\n# odd" {} =
        resourced "# Short.\n\nuint8 x # [knots] A\n# odd" (readInto {} ⟨"A.msg"⟩ ragged {}) := by
  have words : wordsByLine ragged = wordsByLine "# Short.\n\nuint8 x # [knots] A\n# odd" := by
    decide +kernel
  have wf : IsWellFormed ragged := by decide +kernel
  have read := readInto_of_isWellFormed wf {} ⟨"A.msg"⟩ {}
  refine ⟨by decide +kernel, words, ⟨_, by rw [read]⟩, by decide +kernel, ?_⟩
  exact spacing_irrelevant.2 {} ⟨"A.msg"⟩ _ _ {} words

end Schema

end MessageDocs
