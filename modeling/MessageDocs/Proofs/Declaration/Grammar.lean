import MessageDocs.Declaration
import MessageDocs.Proofs.Text.Words

/-! # Which lines declare what

The text before the first `#` of a line decides what the line declares, or what it lacks; the text
after the last `#` is the comment.

* `Declaration.Declares` and `Declaration.Lacks` say so without reading the line from left to right.
* `Declaration.classify_print`: a well-formed declaration is read from the line it is written as.
* `Declaration.classify_grammar`: reading gives what a line declares or what it lacks.
-/

set_option autoImplicit false

namespace MessageDocs.Declaration

open Text

/-! ## Well-formed declarations -/

/-- A word without a mark that ends it. -/
structure IsName (w : Text) : Prop extends IsWord w where
  noComment : '#' ∉ w
  noValue : '=' ∉ w

/-- A text that can be a value or a comment. -/
structure IsEntry (t : Text) : Prop extends IsTrimmed t where
  ne_nil : t ≠ []
  noComment : '#' ∉ t

def IsWellFormed : Declaration → Prop
  | field typeName name comment => IsName typeName ∧ IsName name ∧ ∀ c ∈ comment, IsEntry c
  | constant typeName name value comment =>
    (IsName typeName ∧ IsName name) ∧ IsEntry value ∧ ∀ c ∈ comment, IsEntry c

theorem isName_of_mem_words {t w : Text} (h : w ∈ words t) (noComment : '#' ∉ t)
    (noValue : '=' ∉ t) : IsName w :=
  ⟨isWord_of_mem_words h, fun m => noComment ((infix_of_mem_words h).subset m),
    fun m => noValue ((infix_of_mem_words h).subset m)⟩

theorem isEntry_trim {t : Text} (filled : trim t ≠ []) (noComment : '#' ∉ t) : IsEntry (trim t) :=
  ⟨isTrimmed_trim t, filled, fun m => noComment ((trim_isInfix t).subset m)⟩

theorem nonEmpty?_eq_some_iff {t u : Text} : nonEmpty? t = some u ↔ t = u ∧ u ≠ [] := by
  unfold nonEmpty?
  by_cases h : t = []
  · rw [if_pos h]
    refine iff_of_false (by simp) ?_
    rintro ⟨rfl, ne⟩
    exact ne h
  · rw [if_neg h, Option.some.injEq]
    refine ⟨?_, And.left⟩
    rintro rfl
    exact ⟨rfl, h⟩

/-! ## Written declarations -/

theorem splitComment_append_comment {t : Text} (trimmed : IsTrimmed t) (plain : '#' ∉ t)
    {comment : Option Text} (h : ∀ c ∈ comment, IsEntry c) :
    splitComment (t ++ printComment comment) = (t, comment) := by
  cases comment with
  | none =>
    have uncut : cutAt '#' t = none := cutAt_eq_none_iff.mpr plain
    rw [printComment, List.append_nil, splitComment, uncut, trim_eq_self trimmed]
  | some c =>
    have entry : IsEntry c := h c rfl
    have parts : t ++ printComment (some c) = (t ++ [' ']) ++ '#' :: (' ' :: c) := by
      simp [printComment]
    have first : '#' ∉ t ++ [' '] := by simp [plain]
    have last : '#' ∉ ' ' :: c := by simp [entry.noComment]
    rw [splitComment, parts, cutAt_append_cons first, afterLast_append_cons last]
    dsimp only
    rw [trim_concat_blank trimmed, trim_cons_blank entry.toIsTrimmed,
      nonEmpty?_eq_some_iff.mpr ⟨rfl, entry.ne_nil⟩]

theorem words_of_names {typeName name : Text} (ht : IsName typeName) (hn : IsName name) :
    words (typeName ++ ' ' :: name) = [typeName, name] := by
  rw [words_append_cons isSpace_blank, words_of_isWord ht.toIsWord, words_of_isWord hn.toIsWord]
  rfl

theorem isTrimmed_names {typeName name : Text} (ht : IsName typeName) (hn : IsName name) :
    IsTrimmed (typeName ++ ' ' :: name) :=
  ht.toIsWord.collapsed.toIsTrimmed.append_between ht.ne_nil
    hn.toIsWord.collapsed.toIsTrimmed hn.ne_nil [' ']

theorem print_field (typeName name : Text) (comment : Option Text) :
    print (field typeName name comment) = (typeName ++ ' ' :: name) ++ printComment comment := by
  simp [print]

theorem print_constant (typeName name value : Text) (comment : Option Text) :
    print (constant typeName name value comment) =
      ((typeName ++ ' ' :: name) ++ ' ' :: '=' :: ' ' :: value) ++ printComment comment := by
  simp [print]

/-- **What is written is read back.** -/
theorem classify_print {d : Declaration} (h : d.IsWellFormed) : classify d.print = .ok d := by
  cases d with
  | field typeName name comment =>
    obtain ⟨ht, hn, hc⟩ := h
    have noComment : '#' ∉ typeName ++ ' ' :: name := by simp [ht.noComment, hn.noComment]
    have noValue : '=' ∉ typeName ++ ' ' :: name := by simp [ht.noValue, hn.noValue]
    rw [classify, print_field, splitComment_append_comment (isTrimmed_names ht hn) noComment hc]
    dsimp only
    rw [cutAt_eq_none_iff.mpr noValue, words_of_names ht hn]
  | constant typeName name value comment =>
    obtain ⟨⟨ht, hn⟩, hv, hc⟩ := h
    have noComment : '#' ∉ (typeName ++ ' ' :: name) ++ ' ' :: '=' :: ' ' :: value := by
      simp [ht.noComment, hn.noComment, hv.noComment]
    have trimmed : IsTrimmed ((typeName ++ ' ' :: name) ++ ' ' :: '=' :: ' ' :: value) :=
      (isTrimmed_names ht hn).append_between (by simp) hv.toIsTrimmed hv.ne_nil [' ', '=', ' ']
    have left : (typeName ++ ' ' :: name) ++ ' ' :: '=' :: ' ' :: value =
        (typeName ++ ' ' :: name ++ [' ']) ++ '=' :: (' ' :: value) := by
      simp
    have noValue : '=' ∉ typeName ++ ' ' :: name ++ [' '] := by simp [ht.noValue, hn.noValue]
    have names : words (typeName ++ ' ' :: name ++ [' ']) = [typeName, name] := by
      rw [words_append_cons isSpace_blank, words_of_names ht hn]
      rfl
    rw [classify, print_constant, splitComment_append_comment trimmed noComment hc]
    dsimp only
    rw [left, cutAt_append_cons noValue]
    dsimp only
    rw [names]
    dsimp only
    rw [trim_cons_blank hv.toIsTrimmed, if_neg hv.ne_nil]

/-! ## The parts of a line -/

/-- The text before the first comment mark. -/
def bodyOf (line : Text) : Text :=
  line.takeWhile (· != '#')

/-- What stands in the body before the first `=`, all of it when there is none. -/
def namesOf (line : Text) : Text :=
  (bodyOf line).takeWhile (· != '=')

/-- What stands in the body after the first `=`. -/
def valueOf (line : Text) : Text :=
  ((bodyOf line).dropWhile (· != '=')).tail

/-- The text after the last comment mark, unless there is none. -/
def commentOf (line : Text) : Option Text :=
  if '#' ∈ line then nonEmpty? (trim (afterLast '#' line)) else none

theorem bodyOf_append_cons {a : Text} (h : '#' ∉ a) (b : Text) : bodyOf (a ++ '#' :: b) = a :=
  takeWhile_append_cons h b

theorem bodyOf_isPrefix (line : Text) : bodyOf line <+: line :=
  List.takeWhile_prefix _

theorem valueOf_isSuffix (line : Text) : valueOf line <:+ bodyOf line :=
  (List.tail_suffix _).trans (List.dropWhile_suffix _)

theorem not_mem_bodyOf (line : Text) : '#' ∉ bodyOf line :=
  not_mem_takeWhile '#' line

theorem namesOf_eq_bodyOf {line : Text} (h : '=' ∉ bodyOf line) : namesOf line = bodyOf line :=
  takeWhile_eq_self h

theorem bodyOf_eq_append {line : Text} (h : '=' ∈ bodyOf line) :
    '=' ∉ namesOf line ∧ bodyOf line = namesOf line ++ '=' :: valueOf line := by
  obtain ⟨a, b, parts, first⟩ := List.eq_append_cons_of_mem h
  have before : namesOf line = a := by rw [namesOf, parts, takeWhile_append_cons first]
  have after : valueOf line = b := by
    rw [valueOf, parts, dropWhile_append_cons first, List.tail_cons]
  rw [before, after]
  exact ⟨first, parts⟩

theorem splitComment_eq (line : Text) :
    splitComment line = (trim (bodyOf line), commentOf line) := by
  unfold splitComment commentOf
  cases cut : cutAt '#' line with
  | none =>
    have plain := cutAt_eq_none_iff.mp cut
    rw [if_neg plain, bodyOf, takeWhile_eq_self plain]
  | some parts =>
    obtain ⟨a, b⟩ := parts
    obtain ⟨first, rfl⟩ := cutAt_eq_some_iff.mp cut
    rw [if_pos (by simp), bodyOf_append_cons first]

theorem isEntry_of_mem_commentOf {line c : Text} (h : c ∈ commentOf line) : IsEntry c := by
  unfold commentOf at h
  split at h
  · obtain ⟨rfl, filled⟩ := nonEmpty?_eq_some_iff.mp h
    exact isEntry_trim filled (not_mem_afterLast '#' line)
  · cases h

/-! ## What a line declares and what it lacks -/

inductive Declares (line : Text) : Declaration → Prop
  | field {typeName name : Text} {others : List Text} (plain : '=' ∉ bodyOf line)
      (names : words (bodyOf line) = typeName :: name :: others) :
      Declares line (.field typeName name (commentOf line))
  | constant {typeName name : Text} {others : List Text} (valued : '=' ∈ bodyOf line)
      (names : words (namesOf line) = typeName :: name :: others)
      (filled : ∃ c ∈ valueOf line, isSpace c = false) :
      Declares line (.constant typeName name (trim (valueOf line)) (commentOf line))

inductive Lacks (line : Text) : DeclarationError → Prop
  | fieldName (plain : '=' ∉ bodyOf line) (short : (words (bodyOf line)).length < 2) :
      Lacks line (.missingFieldName (trim (bodyOf line)))
  | constantName (valued : '=' ∈ bodyOf line) (short : (words (namesOf line)).length < 2) :
      Lacks line (.missingConstantName (trim (bodyOf line)))
  | value {typeName name : Text} {others : List Text} (valued : '=' ∈ bodyOf line)
      (names : words (namesOf line) = typeName :: name :: others)
      (blank : ∀ c ∈ valueOf line, isSpace c = true) : Lacks line (.missingValue name)

/-- Two words or more, or fewer than two. -/
theorem two_words_or_short (ws : List Text) :
    (∃ a b others, ws = a :: b :: others) ∨ ws.length < 2 := by
  match ws with
  | [] => exact Or.inr (by simp)
  | [_] => exact Or.inr (by simp)
  | a :: b :: others => exact Or.inl ⟨a, b, others, rfl⟩

theorem not_short {ws others : List Text} {a b : Text} (h : ws = a :: b :: others) :
    ¬ws.length < 2 := by
  rw [h, List.length_cons, List.length_cons]
  omega

/-- Without a sign in its body a line is read from its words. -/
theorem exists_outcome_of_plain {line : Text} (plain : '=' ∉ bodyOf line) :
    (∃ d, Declares line d ∧ classify line = .ok d) ∨
      ∃ e, Lacks line e ∧ classify line = .error e := by
  have uncut : cutAt '=' (trim (bodyOf line)) = none := by
    rw [cutAt_trim (by decide), cutAt_eq_none_iff.mpr plain]
    rfl
  rw [classify, splitComment_eq]
  dsimp only
  rw [uncut, words_trim]
  rcases two_words_or_short (words (bodyOf line)) with ⟨typeName, name, others, names⟩ | short
  · rw [names]
    exact Or.inl ⟨_, .field plain names, rfl⟩
  · refine Or.inr ⟨_, .fieldName plain short, ?_⟩
    match words (bodyOf line), short with
    | [], _ => rfl
    | [_], _ => rfl

/-- With a sign in its body a line is read from what stands on either side of the first one. -/
theorem exists_outcome_of_valued {line : Text} (valued : '=' ∈ bodyOf line) :
    (∃ d, Declares line d ∧ classify line = .ok d) ∨
      ∃ e, Lacks line e ∧ classify line = .error e := by
  obtain ⟨first, parts⟩ := bodyOf_eq_append valued
  have cut : cutAt '=' (trim (bodyOf line)) =
      some (trimStart (namesOf line), trimEnd (valueOf line)) := by
    rw [cutAt_trim (by decide), parts, cutAt_append_cons first]
    rfl
  rw [classify, splitComment_eq]
  dsimp only
  rw [cut]
  dsimp only
  rw [words_trimStart, trim_trimEnd]
  rcases two_words_or_short (words (namesOf line)) with ⟨typeName, name, others, names⟩ | short
  · rw [names]
    dsimp only
    by_cases empty : trim (valueOf line) = []
    · rw [if_pos empty]
      exact Or.inr ⟨_, .value valued names (trim_eq_nil_iff.mp empty), rfl⟩
    · rw [if_neg empty]
      exact Or.inl ⟨_, .constant valued names (trim_ne_nil_iff.mp empty), rfl⟩
  · refine Or.inr ⟨_, .constantName valued short, ?_⟩
    match words (namesOf line), short with
    | [], _ => rfl
    | [_], _ => rfl

/-- Every line declares something or lacks something, and reading finds it. -/
theorem exists_outcome (line : Text) :
    (∃ d, Declares line d ∧ classify line = .ok d) ∨
      ∃ e, Lacks line e ∧ classify line = .error e := by
  by_cases valued : '=' ∈ bodyOf line
  · exact exists_outcome_of_valued valued
  · exact exists_outcome_of_plain valued

theorem Declares.unique {line : Text} {d d' : Declaration} (h : Declares line d)
    (h' : Declares line d') : d = d' := by
  cases h with
  | field plain names =>
    cases h' with
    | field _ names' =>
      rw [names] at names'
      cases names'
      rfl
    | constant valued _ _ => exact absurd valued plain
  | constant valued names _ =>
    cases h' with
    | field plain _ => exact absurd valued plain
    | constant _ names' _ =>
      rw [names] at names'
      cases names'
      rfl

theorem Lacks.unique {line : Text} {e e' : DeclarationError} (h : Lacks line e)
    (h' : Lacks line e') : e = e' := by
  cases h with
  | fieldName plain _ =>
    cases h' with
    | fieldName _ _ => rfl
    | constantName valued _ => exact absurd valued plain
    | value valued _ _ => exact absurd valued plain
  | constantName valued short =>
    cases h' with
    | fieldName plain _ => exact absurd valued plain
    | constantName _ _ => rfl
    | value _ names _ =>
      exact absurd short (not_short names)
  | value valued names _ =>
    cases h' with
    | fieldName plain _ => exact absurd valued plain
    | constantName _ short =>
      exact absurd short (not_short names)
    | value _ names' _ =>
      rw [names] at names'
      cases names'
      rfl

/-- What a line lacks keeps it from declaring anything. -/
theorem Declares.not_lacks {line : Text} {d : Declaration} {e : DeclarationError}
    (h : Declares line d) : ¬Lacks line e := by
  intro lack
  cases h with
  | field plain names =>
    cases lack with
    | fieldName _ short =>
      exact absurd short (not_short names)
    | constantName valued _ => exact plain valued
    | value valued _ _ => exact plain valued
  | constant valued names filled =>
    cases lack with
    | fieldName plain _ => exact plain valued
    | constantName _ short =>
      exact absurd short (not_short names)
    | value _ _ blank =>
      obtain ⟨c, hc, solid⟩ := filled
      rw [blank c hc] at solid
      cases solid

theorem classify_eq_ok_iff {line : Text} {d : Declaration} :
    classify line = .ok d ↔ Declares line d := by
  rcases exists_outcome line with ⟨d', declares, read⟩ | ⟨e, lacks, read⟩
  · rw [read, Except.ok.injEq]
    refine ⟨?_, fun h => declares.unique h⟩
    rintro rfl
    exact declares
  · rw [read]
    exact iff_of_false (by simp) fun declares => declares.not_lacks lacks

theorem classify_eq_error_iff {line : Text} {e : DeclarationError} :
    classify line = .error e ↔ Lacks line e := by
  rcases exists_outcome line with ⟨d, declares, read⟩ | ⟨e', lacks, read⟩
  · rw [read]
    exact iff_of_false (by simp) declares.not_lacks
  · rw [read, Except.error.injEq]
    refine ⟨?_, fun h => lacks.unique h⟩
    rintro rfl
    exact lacks

theorem Declares.isWellFormed {line : Text} {d : Declaration} (h : Declares line d) :
    d.IsWellFormed := by
  have noComment := not_mem_bodyOf line
  have comment : ∀ c ∈ commentOf line, IsEntry c := fun c => isEntry_of_mem_commentOf
  cases h with
  | field plain names =>
    have each := fun w hw => @isName_of_mem_words (bodyOf line) w hw noComment plain
    rw [names] at each
    exact ⟨each _ (by simp), each _ (by simp), comment⟩
  | constant valued names filled =>
    obtain ⟨noValue, parts⟩ := bodyOf_eq_append valued
    rw [parts, List.mem_append, not_or] at noComment
    have each := fun w hw => @isName_of_mem_words (namesOf line) w hw noComment.1 noValue
    rw [names] at each
    refine ⟨⟨each _ (by simp), each _ (by simp)⟩, ?_, comment⟩
    exact isEntry_trim (trim_ne_nil_iff.mpr filled) fun m => noComment.2 (List.mem_cons_of_mem _ m)

/-! ## All lines -/

def uncommented : Declaration → Declaration
  | field typeName name _ => field typeName name none
  | constant typeName name value _ => constant typeName name value none

/-- Whether a line was taken for a constant, read or not. -/
def IsAboutConstant : Except DeclarationError Declaration → Prop
  | .ok (.constant _ _ _ _) | .error (.missingConstantName _) | .error (.missingValue _) => True
  | .ok (.field _ _ _) | .error (.missingFieldName _) => False

theorem isAboutConstant_iff (line : Text) :
    IsAboutConstant (classify line) ↔ '=' ∈ bodyOf line := by
  rcases exists_outcome line with ⟨d, declares, read⟩ | ⟨e, lacks, read⟩
  · rw [read]
    cases declares with
    | field plain _ => exact iff_of_false id plain
    | constant valued _ _ => exact iff_of_true trivial valued
  · rw [read]
    cases lacks with
    | fieldName plain _ => exact iff_of_false id plain
    | constantName valued _ => exact iff_of_true trivial valued
    | value valued _ _ => exact iff_of_true trivial valued

theorem exists_declares_iff (line : Text) :
    (∃ d, Declares line d) ↔ 2 ≤ (words (namesOf line)).length ∧
      ('=' ∈ bodyOf line → ∃ c ∈ valueOf line, isSpace c = false) := by
  constructor
  · rintro ⟨d, h⟩
    cases h with
    | field plain names =>
      rw [namesOf_eq_bodyOf plain, names]
      exact ⟨by simp, fun valued => absurd valued plain⟩
    | constant _ names filled =>
      rw [names]
      exact ⟨by simp, fun _ => filled⟩
  · rintro ⟨enough, filled⟩
    obtain ⟨typeName, name, others, names⟩ :=
      (two_words_or_short (words (namesOf line))).resolve_right (by omega)
    by_cases valued : '=' ∈ bodyOf line
    · exact ⟨_, .constant valued names (filled valued)⟩
    · rw [namesOf_eq_bodyOf valued] at names
      exact ⟨_, .field valued names⟩

/-- Lines with one body differ in their comments only. -/
theorem map_uncommented_classify {line line' : Text} (h : bodyOf line' = bodyOf line) :
    (classify line').map uncommented = (classify line).map uncommented := by
  have names : namesOf line' = namesOf line := by rw [namesOf, namesOf, h]
  have value : valueOf line' = valueOf line := by rw [valueOf, valueOf, h]
  rcases exists_outcome line with ⟨d, declares, read⟩ | ⟨e, lacks, read⟩
  · rw [read]
    cases declares with
    | field plain ws =>
      rw [← h] at plain ws
      rw [classify_eq_ok_iff.mpr (.field plain ws)]
      rfl
    | constant valued ws filled =>
      rw [← h] at valued
      rw [← names] at ws
      rw [← value] at filled ⊢
      rw [classify_eq_ok_iff.mpr (.constant valued ws filled)]
      rfl
  · have same : Lacks line' e := by
      cases lacks with
      | fieldName plain short =>
        rw [← h] at plain short ⊢
        exact .fieldName plain short
      | constantName valued short =>
        rw [← names] at short
        rw [← h] at valued ⊢
        exact .constantName valued short
      | value valued ws blank =>
        rw [← names] at ws
        rw [← value] at blank
        rw [← h] at valued
        exact .value valued ws blank
    rw [read, classify_eq_error_iff.mpr same]

/-- **The grammar of declarations.** Well-formed declarations are read back from their lines. Every
line is read as what it declares, which is well formed, or is refused for what it lacks; whether it
is about a constant, whether it is read and why it is refused depend on its body only. -/
theorem classify_grammar :
    (∀ d : Declaration, d.IsWellFormed → classify d.print = .ok d) ∧
    ∀ line : Text,
      (∀ d, classify line = .ok d ↔ Declares line d) ∧
      (∀ e, classify line = .error e ↔ Lacks line e) ∧
      (∀ d, classify line = .ok d → d.IsWellFormed) ∧
      (IsAboutConstant (classify line) ↔ '=' ∈ bodyOf line) ∧
      ((∃ d, classify line = .ok d) ↔ 2 ≤ (words (namesOf line)).length ∧
        ('=' ∈ bodyOf line → ∃ c ∈ valueOf line, isSpace c = false)) ∧
      ∀ comment : Text, (classify (bodyOf line ++ '#' :: comment)).map uncommented =
        (classify line).map uncommented := by
  refine ⟨fun d => classify_print, fun line => ⟨fun d => classify_eq_ok_iff,
    fun e => classify_eq_error_iff, fun d h => (classify_eq_ok_iff.mp h).isWellFormed,
    isAboutConstant_iff line, ?_, ?_⟩⟩
  · rw [← exists_declares_iff]
    exact exists_congr fun d => classify_eq_ok_iff
  · intro comment
    exact map_uncommented_classify (bodyOf_append_cons (not_mem_bodyOf line) comment)

/-- A declaration whose value and comment have more blanks and more signs than they need. -/
def spacious : Declaration :=
  .constant "uint8" "A_B" "1  =  2" (some "x = [y]")

theorem spacious_read_back :
    spacious.IsWellFormed ∧ classify spacious.print = .ok spacious := by
  have name : ∀ w : Text, w ≠ [] → (w.all fun c => !isSpace c) = true → '#' ∉ w → '=' ∉ w →
      IsName w := fun w ne solid noComment noValue =>
    ⟨isWord_of_all ne solid, noComment, noValue⟩
  have entry : ∀ t : Text, trim t = t → t ≠ [] → '#' ∉ t → IsEntry t := by
    intro t trimmed ne noComment
    have := isTrimmed_trim t
    rw [trimmed] at this
    exact ⟨this, ne, noComment⟩
  have wf : spacious.IsWellFormed := by
    refine ⟨⟨name _ ?_ ?_ ?_ ?_, name _ ?_ ?_ ?_ ?_⟩, entry _ ?_ ?_ ?_, ?_⟩
    any_goals decide
    rintro c ⟨⟩
    exact entry _ (by decide) (by decide) (by decide)
  exact ⟨wf, classify_grammar.1 spacious wf⟩

end MessageDocs.Declaration
