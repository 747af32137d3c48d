import MessageDocs.Proofs.Schema.Layout
import MessageDocs.Proofs.Schema.Reading
import MessageDocs.Proofs.Text.Words

/-! # The descriptions of a message

The header of a schema is divided at its blank lines: those before the first text do not count, and
the one behind the first run of text ends the short description. The division is also what a single
pass over the lines finds that remembers whether the short description has ended.

* `Header.Pass.add` is one step of the pass, and `Header.foldl_add_eq` the whole of it.
* `Header.Divides` is the division of trimmed lines, and `Header.ofLines_of_divides` what follows
  for the descriptions.
* `Schema.headerBlock` is the header as it stands in the source, and
  `Schema.descriptions_of_header` what it says about messages.
-/

set_option autoImplicit false

namespace MessageDocs

open Text

namespace Header

/-! ## One pass over the lines -/

/-- What a pass over header lines has collected, and whether the short description has ended. -/
structure Pass where
  header : Header := {}
  ended : Bool := false

/-- The pass after one more line. A blank line ends the short description if there is one. -/
def Pass.add (p : Pass) (line : Text) : Pass :=
  let line := trim line
  if p.ended then
    { p with header := { p.header with long := p.header.long ++ (line ++ ['\n']) } }
  else if line = [] then
    { p with ended := p.header.short ≠ [] }
  else
    let short := if p.header.short = [] then line else p.header.short ++ ' ' :: line
    { p with header := { p.header with short := short } }

theorem foldl_add_ended (lines : List Text) (short long : Text) :
    lines.foldl Pass.add ⟨⟨short, long⟩, true⟩ =
      ⟨⟨short, long ++ endLines (lines.map trim)⟩, true⟩ := by
  induction lines generalizing long with
  | nil =>
    rw [List.foldl_nil, List.map_nil, endLines, List.map_nil, List.flatten_nil, List.append_nil]
  | cons line lines ih =>
    have step : Pass.add ⟨⟨short, long⟩, true⟩ line =
        ⟨⟨short, long ++ (trim line ++ ['\n'])⟩, true⟩ := rfl
    rw [List.foldl_cons, step, ih, List.map_cons, endLines_cons, List.append_assoc,
      List.append_assoc]
    rfl

/-- A text that grows by a word and a blank is joined as its parts are. -/
theorem join_cons_blank (a b : Text) (ws : List Text) :
    join " " ((a ++ ' ' :: b) :: ws) = join " " (a :: b :: ws) := by
  cases ws with
  | nil =>
    rw [join_cons_cons]
    simp [join]
  | cons w ws =>
    rw [join_cons_cons, join_cons_cons " " a, join_cons_cons]
    simp

theorem foldl_add_begun (lines : List Text) {short : Text} (begun : short ≠ []) :
    (lines.foldl Pass.add ⟨⟨short, []⟩, false⟩).header =
      ⟨join " " (short :: (lines.map trim).takeWhile (· ≠ [])),
        endLines ((lines.map trim).dropWhile (· ≠ [])).tail⟩ := by
  induction lines generalizing short with
  | nil => simp [join, endLines]
  | cons line lines ih =>
    rw [List.foldl_cons, List.map_cons]
    by_cases blank : trim line = []
    · have step : Pass.add ⟨⟨short, []⟩, false⟩ line = ⟨⟨short, []⟩, true⟩ := by
        simp [Pass.add, blank, begun]
      rw [step, foldl_add_ended, blank]
      simp [join]
    · have step : Pass.add ⟨⟨short, []⟩, false⟩ line =
          ⟨⟨short ++ ' ' :: trim line, []⟩, false⟩ := by
        simp [Pass.add, blank, begun]
      rw [step, ih (by simp), List.takeWhile_cons_of_pos (by simpa using blank),
        List.dropWhile_cons_of_pos (by simpa using blank), join_cons_blank]

/-- **The pass collects the descriptions.** -/
theorem foldl_add_eq (lines : List Text) : (lines.foldl Pass.add {}).header = ofLines lines := by
  induction lines with
  | nil => rfl
  | cons line lines ih =>
    rw [List.foldl_cons, ofLines, List.map_cons]
    by_cases blank : trim line = []
    · have step : Pass.add {} line = {} := by simp [Pass.add, blank]
      rw [step, ih, blank]
      rfl
    · have step : Pass.add {} line = ⟨⟨trim line, []⟩, false⟩ := by simp [Pass.add, blank]
      rw [step, foldl_add_begun lines blank, List.dropWhile_cons_of_neg (by simpa using blank),
        List.takeWhile_cons_of_pos (by simpa using blank),
        List.dropWhile_cons_of_pos (by simpa using blank)]

/-! ## The division of the lines -/

/-- Trimmed lines divided into blank ones, a run of text up to the next blank line or the end, and
what follows that blank line. -/
inductive Divides : List Text → List Text → List Text → Prop where
  | whole {blanks text : List Text} (blank : ∀ b ∈ blanks, b = []) (filled : ∀ t ∈ text, t ≠ []) :
    Divides (blanks ++ text) text []
  | parted {blanks text : List Text} (blank : ∀ b ∈ blanks, b = []) (filled : ∀ t ∈ text, t ≠ [])
    (begun : text ≠ []) (rest : List Text) : Divides (blanks ++ (text ++ [] :: rest)) text rest

theorem exists_divides (lines : List Text) : ∃ text rest, Divides lines text rest := by
  have blank : ∀ b ∈ lines.takeWhile (· = []), b = [] := fun b hb => by
    simpa using List.mem_takeWhile_imp hb
  have filled : ∀ t ∈ (lines.dropWhile (· = [])).takeWhile (· ≠ []), t ≠ [] := fun t ht => by
    simpa using List.mem_takeWhile_imp ht
  have cut : lines.takeWhile (· = []) ++ lines.dropWhile (· = []) = lines :=
    List.takeWhile_append_dropWhile
  have run : (lines.dropWhile (· = [])).takeWhile (· ≠ []) ++
      (lines.dropWhile (· = [])).dropWhile (· ≠ []) = lines.dropWhile (· = []) :=
    List.takeWhile_append_dropWhile
  cases behind : (lines.dropWhile (· = [])).dropWhile (· ≠ []) with
  | nil =>
    rw [behind, List.append_nil] at run
    rw [run] at filled
    have whole := Divides.whole blank filled
    rw [cut] at whole
    exact ⟨_, _, whole⟩
  | cons line rest =>
    obtain rfl : line = [] := by
      have ends := List.head?_dropWhile_not (· ≠ []) (lines.dropWhile (· = []))
      rw [behind] at ends
      simpa using ends
    rw [behind] at run
    have begun : (lines.dropWhile (· = [])).takeWhile (· ≠ []) ≠ [] := by
      intro none
      have starts := List.head?_dropWhile_not (· = []) lines
      rw [none, List.nil_append] at run
      rw [← run] at starts
      simp at starts
    have parted := Divides.parted blank filled begun rest
    rw [run, cut] at parted
    exact ⟨_, _, parted⟩

theorem dropWhile_blank_append {blanks : List Text} (blank : ∀ b ∈ blanks, b = [])
    {lines : List Text} (starts : ∀ t ∈ lines.head?, t ≠ []) :
    (blanks ++ lines).dropWhile (· = []) = lines := by
  rw [List.dropWhile_append_of_pos (by simpa using blank)]
  cases lines with
  | nil => rfl
  | cons line lines => exact List.dropWhile_cons_of_neg (by simpa using starts line rfl)

/-- **The descriptions by the division** of the lines: the short one is the run of text, and the
long one what follows the blank line behind it. -/
theorem ofLines_of_divides {lines text rest : List Text}
    (h : Divides (lines.map trim) text rest) :
    ofLines lines = ⟨join " " text, endLines rest⟩ := by
  rw [ofLines]
  generalize lines.map trim = trimmed at h
  cases h with
  | whole blank filled =>
    have starts : ∀ t ∈ text.head?, t ≠ [] := fun t ht => filled t (List.mem_of_mem_head? ht)
    have taken : text.takeWhile (· ≠ []) = text :=
      List.takeWhile_eq_self_iff.mpr (by simpa using filled)
    have left : text.dropWhile (· ≠ []) = [] :=
      List.dropWhile_eq_nil_iff.mpr (by simpa using filled)
    rw [dropWhile_blank_append blank starts]
    rw [taken, left, List.tail_nil]
  | parted blank filled begun rest =>
    have starts : ∀ t ∈ (text ++ [] :: rest).head?, t ≠ [] := by
      intro t ht
      rw [List.head?_append_of_ne_nil _ begun] at ht
      exact filled t (List.mem_of_mem_head? ht)
    have inside : ∀ t ∈ text, decide (t ≠ []) = true := by simpa using filled
    rw [dropWhile_blank_append blank starts]
    rw [List.takeWhile_append_of_pos inside, List.dropWhile_append_of_pos inside,
      List.takeWhile_cons_of_neg (by simp), List.dropWhile_cons_of_neg (by simp), List.tail_cons,
      List.append_nil]

theorem Divides.filled {lines text rest : List Text} (h : Divides lines text rest) :
    ∀ t ∈ text, t ≠ [] := by
  cases h <;> assumption

/-- There is no text at all when the run of text is empty. -/
theorem Divides.text_eq_nil_iff {lines text rest : List Text} (h : Divides lines text rest) :
    text = [] ↔ ∀ line ∈ lines, line = [] := by
  cases h with
  | whole blank filled =>
    constructor
    · rintro rfl
      rwa [List.append_nil]
    · intro all
      rw [List.eq_nil_iff_forall_not_mem]
      exact fun t ht => filled t ht (all t (List.mem_append_right _ ht))
  | parted blank filled begun rest =>
    refine iff_of_false begun fun all => ?_
    obtain ⟨t, ht⟩ := List.exists_mem_of_ne_nil text begun
    exact filled t ht (all t (by simp [ht]))

theorem short_ofLines_eq_nil_iff (lines : List Text) :
    (ofLines lines).short = [] ↔ ∀ line ∈ lines, trim line = [] := by
  obtain ⟨text, rest, divides⟩ := exists_divides (lines.map trim)
  have empty : join " " text = [] ↔ text = [] := by
    refine ⟨fun none => ?_, fun none => by rw [none]; rfl⟩
    by_contra some_text
    exact join_ne_nil divides.filled some_text none
  rw [ofLines_of_divides divides, empty, divides.text_eq_nil_iff, List.forall_mem_map]

theorem short_ofLines_ne_nil {lines : List Text} (h : (ofLines lines).long ≠ []) :
    (ofLines lines).short ≠ [] := by
  obtain ⟨text, rest, divides⟩ := exists_divides (lines.map trim)
  rw [ofLines_of_divides divides] at h ⊢
  generalize lines.map trim = trimmed at divides
  cases divides with
  | whole => exact absurd rfl h
  | parted _ filled begun _ => exact join_ne_nil filled begun

end Header

namespace Schema

/-! ## The header of a source -/

/-- The header as it stands in a source: the run of comment lines at its first line that is not
blank. -/
def headerBlock (source : Text) : List Text :=
  ((collapsedLines source).dropWhile (· = [])).takeWhile (·.head? = some '#')

/-- The lines of the header without their comment marks. -/
def headerTexts (source : Text) : List Text :=
  (headerBlock source).map fun line => trim line.tail

theorem header_ofSource (source : Text) :
    (Layout.ofSource source).header = headerTexts source := by
  have texts : (NumberedLine.numberFrom 1 (collapsedLines source)).map NumberedLine.text =
      collapsedLines source :=
    (map_numberFrom (fun t => t) 1 _).trans (List.map_id _)
  have blank : NumberedLine.isBlank = (fun t : Text => decide (t = [])) ∘ NumberedLine.text := by
    funext l
    rw [Function.comp_apply, NumberedLine.isBlank, Bool.eq_iff_iff, List.isEmpty_iff,
      decide_eq_true_eq]
  have comment : NumberedLine.isComment =
      (fun t : Text => decide (t.head? = some '#')) ∘ NumberedLine.text := rfl
  rw [headerTexts, headerBlock, ← texts, List.dropWhile_map, List.takeWhile_map, List.map_map,
    ← blank, ← comment]
  rfl

theorem header_of_readInto {options : ReadOptions} {path : Path} {source : Text} {m : Message}
    {ds ds' : Diagnostics} (h : readInto options path source ds = (.ok m, ds')) :
    m.short = (Header.ofLines (headerTexts source)).short ∧
      m.long = (Header.ofLines (headerTexts source)).long := by
  obtain ⟨-, rfl, -⟩ := readInto_eq_ok_iff.mp h
  rw [messageOf, header_ofSource]
  exact ⟨rfl, rfl⟩

theorem map_trim_headerTexts (source : Text) :
    (headerTexts source).map trim = headerTexts source := by
  rw [headerTexts, List.map_map]
  exact List.map_congr_left fun line _ => trim_eq_self (isTrimmed_trim _)

/-- **Descriptions are the header, divided at its blank lines.** For every list of lines the pass
over them yields the same as their division, of which there is always one: the short description is
the first run of text, the long one what follows the blank line behind it. In a message that was
read, these are the lines of the header of its source: there is a short description unless the
header has no text, a long one only with a short one, and sources with the same header have the same
descriptions, whatever follows it. -/
theorem descriptions_of_header :
    (∀ lines : List Text,
      (lines.foldl Header.Pass.add {}).header = Header.ofLines lines ∧
      (∃ text rest, Header.Divides (lines.map trim) text rest) ∧
      ∀ text rest, Header.Divides (lines.map trim) text rest →
        Header.ofLines lines = ⟨join " " text, Header.endLines rest⟩) ∧
    ∀ (options : ReadOptions) (path : Path) (source : Text) (m : Message) (ds ds' : Diagnostics),
      readInto options path source ds = (.ok m, ds') →
        (∀ text rest, Header.Divides (headerTexts source) text rest →
          m.short = join " " text ∧ m.long = Header.endLines rest) ∧
        (m.short = [] ↔ ∀ line ∈ headerBlock source, trim line.tail = []) ∧
        (m.long ≠ [] → m.short ≠ []) ∧
        ∀ (options' : ReadOptions) (path' : Path) (other : Text) (m' : Message)
          (before after : Diagnostics),
          readInto options' path' other before = (.ok m', after) →
            headerBlock other = headerBlock source → m'.short = m.short ∧ m'.long = m.long := by
  constructor
  · intro lines
    exact ⟨Header.foldl_add_eq lines, Header.exists_divides _,
      fun _ _ divides => Header.ofLines_of_divides divides⟩
  · intro options path source m ds ds' h
    obtain ⟨short, long⟩ := header_of_readInto h
    refine ⟨?_, ?_, ?_, ?_⟩
    · intro text rest divides
      rw [← map_trim_headerTexts] at divides
      rw [short, long, Header.ofLines_of_divides divides]
      exact ⟨rfl, rfl⟩
    · have trimmed : ∀ line : Text, trim (trim line.tail) = trim line.tail := fun line =>
        trim_eq_self (isTrimmed_trim _)
      rw [short, Header.short_ofLines_eq_nil_iff, headerTexts, List.forall_mem_map]
      simp only [trimmed]
    · rw [short, long]
      exact Header.short_ofLines_ne_nil
    · intro options' path' other m' before after h' same
      obtain ⟨short', long'⟩ := header_of_readInto h'
      rw [short, long, short', long', headerTexts, headerTexts, same]
      exact ⟨rfl, rfl⟩

/-- A schema whose header begins with a line without text and goes on after a blank one. -/
def longHeader : Text :=
  "\n#\n# Battery\n#  status\n#\n# Sent at 1 Hz.\n#\nuint8 x\n"

/-- Another schema with this header, which a blank line ends. -/
def sameHeader : Text :=
  "#\n# Battery\n# status\n#\n# Sent at 1 Hz.\n#\n\n# stray\nfloat32 y\n"

theorem longHeader_described :
    Header.Divides (headerTexts longHeader) ["Battery".toList, "status".toList]
        ["Sent at 1 Hz.".toList, []] ∧
      headerBlock sameHeader = headerBlock longHeader ∧
      ∃ m ds m' ds', readInto {} ⟨"A.msg"⟩ longHeader {} = (.ok m, ds) ∧
        readInto {} ⟨"B.msg"⟩ sameHeader {} = (.ok m', ds') ∧
        m.short = ("Battery status" : Text) ∧ m.long = ("Sent at 1 Hz.\n\n" : Text) ∧
        m'.short = m.short ∧ m'.long = m.long := by
  have texts : headerTexts longHeader =
      [[]] ++ (["Battery".toList, "status".toList] ++ [] :: ["Sent at 1 Hz.".toList, []]) := by
    decide +kernel
  have divides : Header.Divides (headerTexts longHeader) ["Battery".toList, "status".toList]
      ["Sent at 1 Hz.".toList, []] := by
    rw [texts]
    exact .parted (by simp) (by simp) (by simp) _
  have same : headerBlock sameHeader = headerBlock longHeader := by decide +kernel
  have wf : IsWellFormed longHeader := by decide +kernel
  have wf' : IsWellFormed sameHeader := by decide +kernel
  have read := readInto_of_isWellFormed wf {} ⟨"A.msg"⟩ {}
  have read' := readInto_of_isWellFormed wf' {} ⟨"B.msg"⟩ {}
  obtain ⟨divided, -, -, others⟩ :=
    descriptions_of_header.2 {} ⟨"A.msg"⟩ longHeader _ {} _ read
  obtain ⟨short, long⟩ := divided _ _ divides
  exact ⟨divides, same, _, _, _, _, read, read', short, long, others _ _ _ _ _ _ read' same⟩

end Schema

end MessageDocs
