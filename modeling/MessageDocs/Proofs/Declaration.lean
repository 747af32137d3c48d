import MessageDocs.Proofs.Declaration.Grammar

/-! # Declarations are read back as they are written

A declaration that was read from a line with one blank between its words has a value and a comment
that are spaced in the same way; `Declaration.IsPlain` collects this.

* `Declaration.isPlain_of_classify`: what is read from such a line is plain.
* `Declaration.collapsed_print`: a plain declaration is written as such a line.
-/

set_option autoImplicit false

namespace MessageDocs.Declaration

open Text

/-- A text of words without a comment mark. -/
structure IsPhrase (t : Text) : Prop extends Collapsed t where
  ne_nil : t ≠ []
  noComment : '#' ∉ t

/-- Whether a declaration has parts that are read back from its line. -/
def IsPlain : Declaration → Prop
  | field typeName name comment => IsName typeName ∧ IsName name ∧ ∀ c ∈ comment, IsPhrase c
  | constant typeName name value comment =>
    (IsName typeName ∧ IsName name) ∧ IsPhrase value ∧ ∀ c ∈ comment, IsPhrase c

theorem IsPhrase.isEntry {t : Text} (h : IsPhrase t) : IsEntry t :=
  ⟨h.toIsTrimmed, h.ne_nil, h.noComment⟩

theorem IsEntry.isPhrase {t : Text} (h : IsEntry t) (collapsed : Collapsed t) : IsPhrase t :=
  ⟨collapsed, h.ne_nil, h.noComment⟩

theorem IsPlain.isWellFormed {d : Declaration} (h : d.IsPlain) : d.IsWellFormed := by
  cases d with
  | field typeName name comment => exact ⟨h.1, h.2.1, fun c hc => (h.2.2 c hc).isEntry⟩
  | constant typeName name value comment =>
    exact ⟨h.1, h.2.1.isEntry, fun c hc => (h.2.2 c hc).isEntry⟩

/-! ## Lines with one blank between their words -/

theorem collapsed_names {typeName name : Text} (ht : IsName typeName) (hn : IsName name) :
    Collapsed (typeName ++ ' ' :: name) :=
  ht.toIsWord.collapsed.append_blank hn.toIsWord.collapsed ht.ne_nil hn.ne_nil

theorem collapsed_value {typeName name value : Text} (ht : IsName typeName) (hn : IsName name)
    (hv : IsPhrase value) :
    Collapsed ((typeName ++ ' ' :: name) ++ ' ' :: '=' :: ' ' :: value) := by
  have sign : IsWord ['='] := isWord_singleton (by decide)
  have right := sign.collapsed.append_blank hv.toCollapsed sign.ne_nil hv.ne_nil
  exact (collapsed_names ht hn).append_blank right (by simp) (by simp)

theorem collapsed_append_comment {t : Text} (h : Collapsed t) (ne : t ≠ [])
    {comment : Option Text} (hc : ∀ c ∈ comment, IsPhrase c) :
    Collapsed (t ++ printComment comment) := by
  cases comment with
  | none => simpa [printComment] using h
  | some c =>
    have phrase : IsPhrase c := hc c rfl
    have mark : IsWord ['#'] := isWord_singleton (by decide)
    have right := mark.collapsed.append_blank phrase.toCollapsed mark.ne_nil phrase.ne_nil
    have whole := h.append_blank right ne (by simp)
    simpa [printComment] using whole

theorem collapsed_print {d : Declaration} (h : d.IsPlain) : Collapsed d.print := by
  cases d with
  | field typeName name comment =>
    obtain ⟨ht, hn, hc⟩ := h
    rw [print_field]
    exact collapsed_append_comment (collapsed_names ht hn) (by simp) hc
  | constant typeName name value comment =>
    obtain ⟨⟨ht, hn⟩, hv, hc⟩ := h
    rw [print_constant]
    exact collapsed_append_comment (collapsed_value ht hn hv) (by simp) hc

/-- A written declaration begins with its type, so it is neither blank nor a comment. -/
theorem print_start {d : Declaration} (h : d.IsPlain) :
    d.print ≠ [] ∧ d.print.head? ≠ some '#' := by
  have start : ∃ typeName rest, IsName typeName ∧ d.print = typeName ++ rest := by
    cases d with
    | field typeName name comment =>
      exact ⟨typeName, _, h.1, by rw [print_field, List.append_assoc]⟩
    | constant typeName name value comment =>
      exact ⟨typeName, _, h.1.1, by rw [print_constant, List.append_assoc, List.append_assoc]⟩
  obtain ⟨typeName, rest, ht, form⟩ := start
  rw [form, List.head?_append_of_ne_nil _ ht.ne_nil]
  exact ⟨by simp [ht.ne_nil], fun mark => ht.noComment (List.mem_of_mem_head? mark)⟩

theorem isPhrase_of_mem_commentOf {line c : Text} (h : Collapsed line) (hc : c ∈ commentOf line) :
    IsPhrase c := by
  refine (isEntry_of_mem_commentOf hc).isPhrase ?_
  unfold commentOf at hc
  split at hc
  · obtain ⟨rfl, -⟩ := nonEmpty?_eq_some_iff.mp hc
    exact (h.toIsSpaced.part (afterLast_suffix '#' line).isInfix).collapsed_trim
  · cases hc

/-- What is read from a line with one blank between its words is plain. -/
theorem isPlain_of_classify {line : Text} {d : Declaration} (h : Collapsed line)
    (read : classify line = .ok d) : d.IsPlain := by
  have declares : Declares line d := classify_eq_ok_iff.mp read
  have comment : ∀ c ∈ commentOf line, IsPhrase c := fun c => isPhrase_of_mem_commentOf h
  have wellFormed := declares.isWellFormed
  cases declares with
  | field _ _ => exact ⟨wellFormed.1, wellFormed.2.1, comment⟩
  | constant _ _ _ =>
    have part : valueOf line <:+: line :=
      (valueOf_isSuffix line).isInfix.trans (bodyOf_isPrefix line).isInfix
    have spaced : IsSpaced (valueOf line) := h.toIsSpaced.part part
    exact ⟨wellFormed.1, wellFormed.2.1.isPhrase spaced.collapsed_trim, comment⟩

end MessageDocs.Declaration
