import MessageDocs.Proofs.Schema.Layout
import MessageDocs.Proofs.Schema.Reading
import MessageDocs.Proofs.Text.Lines

/-! # A failure is that of the first bad line

A line is refused for what it says itself, or because its name was declared before. Either way no
line after it plays a part.

* `Schema.StopsAt`: some body lines are read, and the one after them is refused.
* `Schema.readInto_eq_error_iff`: a reading fails exactly when it stops somewhere.
* `Schema.stops_at_first_bad_line`: the failure belongs to a line of the source, the lines before
  it can be read on their own, and whatever follows it the failure is the same.
-/

set_option autoImplicit false

namespace MessageDocs.Schema

variable {options : ReadOptions} {path : Path} {source : Text}

/-! ## One line -/

/-- What a field or constant is refused for is its own name and the names that the draft has. -/
theorem addField_error {d : Draft} {f : Field} {e : Failure} (h : addField path d f = .error e) :
    (∃ message help, e = .schema path f.line message (some help)) ∧
      ∀ d' : Draft, d'.fields = d.fields → addField path d' f = .error e := by
  rw [addField, Draft.addField, Draft.declareEnums_eq] at h
  dsimp only at h
  cases found : Roster.find? Field.name d.fields f.name with
  | none =>
    rw [found] at h
    cases h
  | some first =>
    rw [found] at h
    cases h
    refine ⟨⟨_, _, rfl⟩, ?_⟩
    intro d' same
    rw [addField, Draft.addField, Draft.declareEnums_eq]
    dsimp only
    rw [same, found]

theorem addConstant_error {d : Draft} {c : Constant} {e : Failure}
    (h : addConstant path d c = .error e) :
    (∃ message help, e = .schema path c.line message (some help)) ∧
      ∀ d' : Draft, d'.constants = d.constants → addConstant path d' c = .error e := by
  rw [addConstant, Draft.addConstant] at h
  cases found : Roster.find? Constant.name d.constants c.name with
  | none =>
    rw [found] at h
    cases h
  | some first =>
    rw [found] at h
    cases h
    refine ⟨⟨_, _, rfl⟩, ?_⟩
    intro d' same
    rw [addConstant, Draft.addConstant, same, found]

theorem readDeclaration_error {line : Nat} {text : Text} {d : Draft} {ds ds' : Diagnostics}
    {e : Failure} (h : readDeclaration options path line text d ds = (.error e, ds')) :
    (∃ message help, e = .schema path line message (some help)) ∧
      ∀ d' : Draft, d'.fields = d.fields → d'.constants = d.constants →
        readDeclaration options path line text d' ds = (.error e, ds') := by
  unfold readDeclaration at h ⊢
  cases read : Declaration.classify text with
  | error refusal =>
    rw [read] at h
    cases h
    exact ⟨⟨_, _, rfl⟩, fun _ _ _ => rfl⟩
  | ok declaration =>
    rw [read] at h
    cases declaration with
    | constant typeName name value comment =>
      obtain ⟨refused, rfl⟩ := Prod.mk.inj h
      obtain ⟨shape, again⟩ := addConstant_error refused
      exact ⟨shape, fun d' _ constants => congrArg (·, ds) (again d' constants)⟩
    | field typeName name comment =>
      dsimp only at h ⊢
      cases said : Metadata.read comment with
      | error refusal =>
        rw [said] at h
        cases h
        exact ⟨⟨_, _, rfl⟩, fun _ _ _ => rfl⟩
      | ok metadata =>
        rw [said] at h
        obtain ⟨refused, rfl⟩ := Prod.mk.inj h
        obtain ⟨shape, again⟩ := addField_error refused
        exact ⟨shape, fun d' fields _ => congrArg (·, _) (again d' fields)⟩

/-- **A line that is refused** is neither blank nor a comment, the failure carries its number, and
of the draft it depends on the declared names only. -/
theorem readLine_error {l : NumberedLine} {d : Draft} {ds ds' : Diagnostics} {e : Failure}
    (h : readLine options path l d ds = (.error e, ds')) :
    (l.isBlank = false ∧ l.isComment = false) ∧
      (∃ message help, e = .schema path l.number message (some help)) ∧
      ∀ d' : Draft, d'.fields = d.fields → d'.constants = d.constants →
        readLine options path l d' ds = (.error e, ds') := by
  unfold readLine at h ⊢
  cases kind : BodyLine.ofText l.text with
  | blank | topics | comment =>
    rw [kind] at h
    cases h
  | declaration text =>
    rw [kind] at h
    obtain ⟨shape, again⟩ := readDeclaration_error h
    refine ⟨⟨?_, ?_⟩, shape, again⟩
    · rw [Bool.eq_false_iff]
      exact fun blank => not_declaration_of_blank_or_comment (Or.inl blank) text kind
    · rw [Bool.eq_false_iff]
      exact fun comment => not_declaration_of_blank_or_comment (Or.inr comment) text kind

/-! ## A run of lines -/

/-- A run of lines fails exactly when it comes to a line that is refused. -/
theorem readLines_eq_error_iff {lines : List NumberedLine} {d : Draft} {ds ds' : Diagnostics}
    {e : Failure} :
    readLines options path lines d ds = (.error e, ds') ↔
      ∃ before l after, lines = before ++ l :: after ∧
        ∃ d₁ ds₁, readLines options path before d ds = (.ok d₁, ds₁) ∧
          readLine options path l d₁ ds₁ = (.error e, ds') := by
  constructor
  · intro h
    induction lines generalizing d ds with
    | nil => cases h
    | cons l lines ih =>
      rw [readLines] at h
      split at h
      · next d₁ ds₁ here =>
        obtain ⟨before, bad, after, rfl, d₂, ds₂, read, refused⟩ := ih h
        refine ⟨l :: before, bad, after, rfl, d₂, ds₂, ?_, refused⟩
        rw [readLines, here]
        exact read
      · next here =>
        cases h
        exact ⟨[], l, lines, rfl, d, ds, rfl, here⟩
  · rintro ⟨before, l, after, rfl, d₁, ds₁, read, refused⟩
    induction before generalizing d ds with
    | nil =>
      cases read
      rw [List.nil_append, readLines, refused]
    | cons first before ih =>
      rw [readLines] at read
      split at read
      · next here =>
        rw [List.cons_append, readLines, here]
        exact ih read
      · cases read

/-! ## Where a reading stops -/

/-- Whether the reading of a body gets through some lines and is refused at the next one. -/
structure StopsAt (options : ReadOptions) (path : Path) (ds : Diagnostics)
    (before : List NumberedLine) (l : NumberedLine) (e : Failure) (ds' : Diagnostics) : Prop where
  readable : ∀ x ∈ before, IsReadable x
  admitted : (draftOf path []).AdmitsAll (declaredIn before)
  refused : readLine options path l ((draftOf path []).acceptAll (declaredIn before))
    (noteLines options path before ds) = (.error e, ds')

theorem admitsAll_draftOf_iff {es : List Declared} :
    (draftOf path source).AdmitsAll es ↔
      ((Declared.fields es).map Field.name).Nodup ∧
        ((Declared.constants es).map Constant.name).Nodup :=
  Draft.admitsAll_iff List.nodup_nil List.nodup_nil

theorem readInto_eq_error_iff {ds ds' : Diagnostics} {e : Failure} :
    readInto options path source ds = (.error e, ds') ↔
      ∃ before l after, bodyOf source = before ++ l :: after ∧
        StopsAt options path ds before l e ds' := by
  have body : readInto options path source ds = (.error e, ds') ↔
      readLines options path (bodyOf source) (draftOf path source) ds = (.error e, ds') := by
    unfold readInto
    dsimp only
    rw [← bodyOf, ← draftOf]
    split <;> simp [*]
  have same (es : List Declared) :
      ((draftOf path []).acceptAll es).fields = ((draftOf path source).acceptAll es).fields ∧
        ((draftOf path []).acceptAll es).constants =
          ((draftOf path source).acceptAll es).constants := by
    simp only [Draft.acceptAll_fields, Draft.acceptAll_constants, draftOf, and_self]
  rw [body, readLines_eq_error_iff]
  constructor
  · rintro ⟨before, l, after, cut, d, ds₁, read, refused⟩
    obtain ⟨readable, admitted, rfl, rfl⟩ := readLines_eq_ok_iff.mp read
    refine ⟨before, l, after, cut, readable, ?_, ?_⟩
    · exact admitsAll_draftOf_iff.mpr (admitsAll_draftOf_iff.mp admitted)
    · exact (readLine_error refused).2.2 _ (same _).1 (same _).2
  · rintro ⟨before, l, after, cut, readable, admitted, refused⟩
    refine ⟨before, l, after, cut, _, _, readLines_eq_ok_iff.mpr ⟨readable, ?_, rfl, rfl⟩, ?_⟩
    · exact admitsAll_draftOf_iff.mpr (admitsAll_draftOf_iff.mp admitted)
    · exact (readLine_error refused).2.2 _ (same _).1.symm (same _).2.symm

/-! ## The first lines of a source -/

theorem linesOf_take {t : Text} {n : Nat}
    (h : (Text.lines t).take n = (Text.lines source).take n) :
    (linesOf t).take n = (linesOf source).take n := by
  rw [linesOf, linesOf, ← numberFrom_take, ← numberFrom_take, collapsedLines, collapsedLines,
    ← List.map_take, ← List.map_take, h]

theorem linesOf_firstLines (n : Nat) (source : Text) :
    linesOf (Text.firstLines n source) = (linesOf source).take n := by
  rw [linesOf, linesOf, ← numberFrom_take, collapsedLines, collapsedLines, Text.lines_firstLines,
    List.map_take]

theorem length_linesOf (source : Text) : (linesOf source).length = (Text.lines source).length := by
  rw [linesOf, numberFrom_length, collapsedLines, List.length_map]

theorem dropWhile_append_of_exists {α : Type} {p : α → Bool} {xs : List α} (ys : List α)
    (h : ∃ x ∈ xs, p x = false) : (xs ++ ys).dropWhile p = xs.dropWhile p ++ ys := by
  rw [List.dropWhile_append, if_neg]
  obtain ⟨x, listed, stays⟩ := h
  intro none
  have all := List.dropWhile_eq_nil_iff.mp (List.isEmpty_iff.mp none) x listed
  rw [stays] at all
  cases all

theorem mem_dropWhile {α : Type} {p : α → Bool} {xs : List α} {x : α} (h : x ∈ xs)
    (stays : p x = false) : x ∈ xs.dropWhile p := by
  rw [← List.takeWhile_append_dropWhile (p := p) (l := xs), List.mem_append] at h
  refine h.resolve_left fun taken => ?_
  rw [List.mem_takeWhile_imp taken] at stays
  cases stays

/-- Once the header has ended, more lines only add to the body. -/
theorem Layout.ofLines_append_body {lines : List NumberedLine} {l : NumberedLine} (h : l ∈ lines)
    (notBlank : l.isBlank = false) (notComment : l.isComment = false) (more : List NumberedLine) :
    (Layout.ofLines (lines ++ more)).body = (Layout.ofLines lines).body ++ more := by
  rw [Layout.ofLines, Layout.ofLines]
  dsimp only
  rw [dropWhile_append_of_exists more ⟨l, h, notBlank⟩,
    dropWhile_append_of_exists more ⟨l, mem_dropWhile h notBlank, notComment⟩]

/-- **Where the body is cut.** The lines up to a body line that declares something are the first
lines of the source, and they have the same body up to there. -/
theorem bodyOf_eq_append {before after : List NumberedLine} {l : NumberedLine}
    (cut : bodyOf source = before ++ l :: after) (notBlank : l.isBlank = false)
    (notComment : l.isComment = false) :
    l.number ≤ (linesOf source).length ∧ 1 ≤ l.number ∧
      declaredIn ((linesOf source).take (l.number - 1)) = declaredIn before ∧
      ((∀ x ∈ before, IsReadable x) → ∀ x ∈ (linesOf source).take (l.number - 1), IsReadable x) ∧
      ∀ t, (linesOf t).take l.number = (linesOf source).take l.number →
        ∃ after', bodyOf t = before ++ l :: after' := by
  obtain ⟨blanks, block, lines_eq, -, allBlank, allComment, -⟩ :=
    Layout.exists_append_body (linesOf source)
  change linesOf source = blanks ++ block ++ bodyOf source at lines_eq
  rw [cut, ← List.append_assoc] at lines_eq
  have skipped : ∀ x ∈ blanks ++ block, x.isBlank = true ∨ x.isComment = true := by
    intro x hx
    exact (List.mem_append.mp hx).imp (allBlank x) (allComment x)
  have number : l.number = 1 + (blanks ++ block ++ before).length := number_eq lines_eq
  have until_l : (linesOf source).take (l.number - 1) = blanks ++ block ++ before := by
    rw [lines_eq, number, Nat.add_sub_cancel_left, List.take_left]
  have through_l : (linesOf source).take l.number = blanks ++ block ++ before ++ [l] := by
    rw [lines_eq, number, List.append_cons, List.take_left']
    rw [List.length_append, List.length_singleton, Nat.add_comm]
  refine ⟨?_, by omega, ?_, ?_, ?_⟩
  · rw [lines_eq, List.length_append, List.length_cons]
    omega
  · have none : declaredIn (blanks ++ block) = [] := by
      rw [declaredIn, List.filterMap_eq_nil_iff]
      exact fun x hx => declaredOn?_of_blank_or_comment (skipped x hx)
    rw [until_l, declaredIn_append, none, List.nil_append]
  · intro readable x hx
    rw [until_l] at hx
    rcases List.mem_append.mp hx with hx | hx
    · exact isReadable_of_blank_or_comment (skipped x hx)
    · exact readable x hx
  · intro t same
    have listed : l ∈ (linesOf source).take l.number := by
      rw [through_l]
      exact List.mem_concat_self
    have here := Layout.ofLines_append_body listed notBlank notComment
      ((linesOf source).drop l.number)
    have there := Layout.ofLines_append_body listed notBlank notComment
      ((linesOf t).drop l.number)
    rw [List.take_append_drop] at here
    rw [← same, List.take_append_drop, same] at there
    have rest : (linesOf source).drop l.number = after := by
      rw [lines_eq, number, List.append_cons, List.drop_left']
      rw [List.length_append, List.length_singleton, Nat.add_comm]
    change bodyOf source = _ at here
    change bodyOf t = _ at there
    rw [cut, rest, List.append_cons] at here
    refine ⟨(linesOf t).drop l.number, ?_⟩
    rw [there, ← List.append_cancel_right here, ← List.append_cons]

/-- The first lines of a well-formed source are well formed. -/
theorem IsWellFormed.firstLines (wf : IsWellFormed source) (n : Nat) :
    IsWellFormed (Text.firstLines n source) := by
  have kept : declaredIn (linesOf (Text.firstLines n source)) <+: declaredIn (linesOf source) := by
    rw [linesOf_firstLines]
    exact (List.take_prefix n _).filterMap _
  refine ⟨?_, ?_, ?_⟩
  · rw [linesOf_firstLines]
    exact fun x hx => wf.readable x (List.mem_of_mem_take hx)
  · exact wf.fields.sublist ((kept.filterMap _).sublist.map _)
  · exact wf.constants.sublist ((kept.filterMap _).sublist.map _)

/-- **A reading stops at the first bad line.** Its failure carries the number of a line of the
source; the lines before that one can be read, and every source with the same lines up to there is
refused with the same failure and the same remarks. A source is read exactly when all its first
lines are. -/
theorem stops_at_first_bad_line (options : ReadOptions) (path : Path) (source : Text)
    (ds : Diagnostics) :
    (∀ e ds', readInto options path source ds = (.error e, ds') →
      ∃ n message help, e = .schema path n message (some help) ∧
        1 ≤ n ∧ n ≤ (Text.lines source).length ∧
        (∃ m ds₁, readInto options path (Text.firstLines (n - 1) source) ds = (.ok m, ds₁)) ∧
        ∀ t, (Text.lines t).take n = (Text.lines source).take n →
          readInto options path t ds = (.error e, ds')) ∧
    ((∃ m ds', readInto options path source ds = (.ok m, ds')) ↔
      ∀ k, ∃ m ds', readInto options path (Text.firstLines k source) ds = (.ok m, ds')) := by
  refine ⟨?_, ?_, ?_⟩
  · intro e ds' h
    obtain ⟨before, l, after, cut, stops⟩ := readInto_eq_error_iff.mp h
    obtain ⟨⟨notBlank, notComment⟩, ⟨message, help, e_eq⟩, -⟩ := readLine_error stops.refused
    obtain ⟨bound, first, declared, readable, cuts⟩ := bodyOf_eq_append cut notBlank notComment
    rw [length_linesOf] at bound
    refine ⟨l.number, message, help, e_eq, first, bound, ?_, ?_⟩
    · obtain ⟨fields, constants⟩ := admitsAll_draftOf_iff.mp stops.admitted
      have wf : IsWellFormed (Text.firstLines (l.number - 1) source) := by
        refine ⟨?_, ?_, ?_⟩
        · rw [linesOf_firstLines]
          exact readable stops.readable
        · rw [fieldsOf, linesOf_firstLines, declared]
          exact fields
        · rw [constantsOf, linesOf_firstLines, declared]
          exact constants
      exact ⟨_, _, readInto_of_isWellFormed wf options path ds⟩
    · intro t same
      obtain ⟨after', cut'⟩ := cuts t (linesOf_take same)
      exact readInto_eq_error_iff.mpr ⟨before, l, after', cut', stops⟩
  · rintro ⟨m, ds', h⟩ k
    have wf := (readInto_eq_ok_iff.mp h).1
    exact ⟨_, _, readInto_of_isWellFormed (wf.firstLines k) options path ds⟩
  · intro h
    have whole := h (source.length + 1)
    rw [Text.firstLines_eq_self] at whole
    exact whole

/-- A schema with a second field of one name, on its fourth line. -/
def repeatedName : Text :=
  "# H\n\nfloat32 f # [N] x\nu8 f\nu8\n"

theorem repeatedName_stops :
    ∃ e ds, readInto {} ⟨"A.msg"⟩ repeatedName {} = (.error e, ds) ∧
      e.line? = some 4 ∧ ds.list.length = 1 ∧
      (∃ m ds₁, readInto {} ⟨"A.msg"⟩ "# H\n\nfloat32 f # [N] x\n" {} = (.ok m, ds₁)) ∧
      readInto {} ⟨"A.msg"⟩ "# H\n\nfloat32 f # [N] x\nu8 f\r\n# more" {} = (.error e, ds) := by
  have failed : readInto {} ⟨"A.msg"⟩ repeatedName {} =
      (.error (.schema ⟨"A.msg"⟩ 4 "duplicate field 'f' (first declared on line 3)"
        (some "Field names must be unique".toList)),
      (readInto {} ⟨"A.msg"⟩ repeatedName {}).2) := by
    decide +kernel
  have remarks : (readInto {} ⟨"A.msg"⟩ repeatedName {}).2.list.length = 1 := by decide +kernel
  obtain ⟨n, message, help, e_eq, -, -, before, again⟩ :=
    (stops_at_first_bad_line {} ⟨"A.msg"⟩ repeatedName {}).1 _ _ failed
  obtain ⟨-, rfl, -, -⟩ := Failure.schema.inj e_eq
  have shorter : Text.firstLines 3 repeatedName = "# H\n\nfloat32 f # [N] x\n" := by decide +kernel
  rw [← shorter]
  exact ⟨_, _, failed, rfl, remarks, before, again _ (by decide +kernel)⟩

end MessageDocs.Schema
