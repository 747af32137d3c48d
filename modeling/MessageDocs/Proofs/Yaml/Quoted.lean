import Mathlib.Data.List.TakeWhile
import MessageDocs.Proofs.Text.Split
import MessageDocs.Yaml.Scalar

/-! # Scalars between double quotes

A scalar between double quotes is read as it is written when nothing in it has a meaning of its
own: no quote, no backslash and no line break. Blanks and tabs inside it stay what they are.

* `Quotable`: the texts that can be written between double quotes as they are.
* `quotedScalar_eq`: what is read of such a text is the text.
-/

set_option autoImplicit false

namespace MessageDocs

namespace Yaml

namespace Cursor

theorem advance_zero (c : Cursor) : c.advance 0 = c := rfl

theorem advance_advance (m n : Nat) (c : Cursor) : (c.advance m).advance n = c.advance (m + n) := by
  have taken : c.rest.take (m + n) = c.rest.take m ++ (c.rest.drop m).take n := List.take_add
  simp only [advance, List.drop_drop, taken, Text.byteLength_append, Nat.add_assoc]

theorem rest_advance_of_append {c : Cursor} {a b : Text} (h : c.rest = a ++ b) :
    (c.advance a.length).rest = b := by
  change c.rest.drop a.length = b
  rw [h, List.drop_left]

theorem rest_advance_of_append_cons {c : Cursor} {a b : Text} {d : Char}
    (h : c.rest = a ++ d :: b) :
    (c.advance (a.length + 1)).rest = b := by
  rw [← advance_advance]
  exact rest_advance_of_append (a := [d]) (rest_advance_of_append h)

theorem offset_advance_of_append {c : Cursor} {a b : Text} (h : c.rest = a ++ b) :
    (c.advance a.length).offset = c.offset + Text.byteLength a := by
  change c.offset + Text.byteLength (c.rest.take a.length) = _
  rw [h, List.take_left]

section

variable {c : Cursor} {tail : Text} (h : c.rest = '\n' :: tail)

include h

theorem rest_nextLine : c.nextLine.rest = tail := by
  rw [nextLine, h]
  rfl

theorem column_nextLine : c.nextLine.column = 0 := by
  rw [nextLine, h]
  rfl

theorem line_nextLine : c.nextLine.line = c.line + 1 := by
  rw [nextLine, h]
  rfl

theorem bound_nextLine : c.nextLine.bound = c.bound := by
  rw [nextLine, h]
  rfl

end

/-- Behind the first column no mark of documents can stand. -/
theorem atDocumentEdge_of_column {c : Cursor} (h : c.column ≠ 0) : c.atDocumentEdge = false := by
  simp [atDocumentEdge, atDocumentMark, h]

end Cursor

/-! ## What can be quoted -/

/-- The characters that stand for themselves between double quotes. -/
def isQuotable (c : Char) : Bool :=
  isAllowed c && !isBreak c && c ≠ '"' && c ≠ '\\'

/-- A text that can be written between double quotes as it is. -/
def Quotable (t : Text) : Prop :=
  ∀ c ∈ t, isQuotable c = true

instance (t : Text) : Decidable (Quotable t) :=
  List.decidableBAll (isQuotable · = true) t

theorem isQuotable_iff {c : Char} :
    isQuotable c = true ↔ isAllowed c = true ∧ isBreak c = false ∧ c ≠ '"' ∧ c ≠ '\\' := by
  simp only [isQuotable, Bool.and_eq_true, Bool.not_eq_true', decide_eq_true_eq, and_assoc]

/-! ## Reading pieces and gaps -/

/-- Whether a piece of a scalar between double quotes ends here. -/
def EndsPiece : Text → Prop
  | [] => True
  | c :: _ => isBlank c = true ∨ c = '"'

theorem quotedPiece_eq {word tail : Text}
    (plain : ∀ c ∈ word, isQuotable c = true ∧ isBlank c = false)
    (ends : EndsPiece tail) {n : Nat} (fuel : word.length ≤ n) (text : Text) {c : Cursor}
    (rest : c.rest = word ++ tail) :
    quotedPiece .double n text c = some ⟨word.reverse ++ text, c.advance word.length, false⟩ := by
  induction word generalizing n text c with
  | nil =>
    rw [List.nil_append] at rest
    cases n with
    | zero => rfl
    | succ n =>
      rw [quotedPiece, rest]
      cases tail with
      | nil => rfl
      | cons d tail =>
        rcases ends with blank | rfl
        · simp [blank, Cursor.advance_zero]
        · simp [Quote.char, Cursor.advance_zero]
  | cons d word ih =>
    obtain ⟨here, plain⟩ := List.forall_mem_cons.mp plain
    obtain ⟨-, noBreak, noQuote, noBackslash⟩ := isQuotable_iff.mp here.1
    obtain ⟨n, rfl⟩ : ∃ m, n = m + 1 := ⟨n - 1, by rw [List.length_cons] at fuel; omega⟩
    rw [List.length_cons, Nat.add_le_add_iff_right] at fuel
    have next : (c.advance 1).rest = word ++ tail := Cursor.rest_advance_of_append (a := [d]) rest
    rw [quotedPiece, rest]
    simp only [List.cons_append, here.2, noBreak, Bool.or_self, Bool.false_eq_true, if_false,
      Quote.char, noQuote, noBackslash, reduceCtorEq, decide_false, Bool.false_and, Bool.and_false]
    rw [ih plain fuel (d :: text) next, Cursor.advance_advance, List.reverse_cons,
      List.append_assoc, List.length_cons, Nat.add_comm 1]
    rfl

theorem take_eq {blanks tail : Text} (blank : ∀ c ∈ blanks, isBlank c = true)
    (ends : ∀ c ∈ tail.head?, isBlank c = false ∧ isBreak c = false) {n : Nat}
    (fuel : blanks.length ≤ n) {g : Gap} (unbroken : g.broken = false) {c : Cursor}
    (rest : c.rest = blanks ++ tail) :
    Gap.take 0 n g c =
      some ({ g with blanks := g.blanks ++ blanks }, c.advance blanks.length) := by
  induction blanks generalizing n g c with
  | nil =>
    rw [List.nil_append] at rest
    rw [List.append_nil]
    cases n with
    | zero => rfl
    | succ n =>
      rw [Gap.take, rest]
      cases tail with
      | nil => rfl
      | cons d tail =>
        obtain ⟨notBlank, notBreak⟩ := ends d rfl
        simp [notBlank, notBreak, Cursor.advance_zero]
  | cons d blanks ih =>
    obtain ⟨here, blank⟩ := List.forall_mem_cons.mp blank
    obtain ⟨n, rfl⟩ : ∃ m, n = m + 1 := ⟨n - 1, by rw [List.length_cons] at fuel; omega⟩
    rw [List.length_cons, Nat.add_le_add_iff_right] at fuel
    have next : (c.advance 1).rest = blanks ++ tail :=
      Cursor.rest_advance_of_append (a := [d]) rest
    rw [Gap.take, rest]
    simp only [List.cons_append, here, if_true, unbroken, Bool.false_eq_true, if_false]
    rw [ih blank fuel rfl next, Cursor.advance_advance, List.append_assoc, List.length_cons,
      Nat.add_comm 1]
    rfl

/-! ## Reading the whole scalar -/

/-- A text as a word, blanks, and what follows them. -/
theorem exists_word_blanks (t : Text) :
    ∃ word blanks more, t = word ++ (blanks ++ more) ∧ (∀ c ∈ word, isBlank c = false) ∧
      (∀ c ∈ blanks, isBlank c = true) ∧ (∀ c ∈ more.head?, isBlank c = false) ∧
      (blanks = [] → more = []) := by
  refine ⟨t.takeWhile (!isBlank ·), (t.dropWhile (!isBlank ·)).takeWhile isBlank,
    (t.dropWhile (!isBlank ·)).dropWhile isBlank, ?_, ?_, ?_, ?_, ?_⟩
  · rw [List.takeWhile_append_dropWhile, List.takeWhile_append_dropWhile]
  · intro c hc
    simpa using List.mem_takeWhile_imp hc
  · intro c hc
    exact List.mem_takeWhile_imp hc
  · intro c hc
    have first := List.head?_dropWhile_not isBlank (t.dropWhile (!isBlank ·))
    rw [Option.mem_def.mp hc] at first
    simpa using first
  · intro none
    cases left : t.dropWhile (!isBlank ·) with
    | nil => rfl
    | cons d more =>
      have first := List.head?_dropWhile_not (!isBlank ·) t
      rw [left] at first none
      have blank : isBlank d = true := by simpa using first
      rw [List.takeWhile_cons_of_pos blank] at none
      cases none

theorem quotedPieces_eq {t tail : Text} (quotable : Quotable t) {n : Nat} (fuel : t.length < n)
    (text : Text) {c : Cursor} (inside : c.column ≠ 0) (rest : c.rest = t ++ '"' :: tail) :
    quotedPieces .double n text c =
      some ⟨text.reverse ++ t, c.advance (t.length + 1), false⟩ := by
  induction n generalizing t text c with
  | zero => cases fuel
  | succ n ih =>
    obtain ⟨word, blanks, more, rfl, plain, blank, first, alone⟩ := exists_word_blanks t
    have quotable_word : ∀ c ∈ word, isQuotable c = true ∧ isBlank c = false :=
      fun c hc => ⟨quotable c (List.mem_append_left _ hc), plain c hc⟩
    have quotable_more : Quotable more := fun c hc =>
      quotable c (List.mem_append_right _ (List.mem_append_right _ hc))
    have some_rest : c.rest ≠ [] := by
      rw [rest]
      simp
    rw [List.length_append, List.length_append] at fuel
    rw [List.append_assoc, List.append_assoc] at rest
    have after_word := Cursor.rest_advance_of_append rest
    rw [quotedPieces, Cursor.atDocumentEdge_of_column inside]
    by_cases none : blanks = []
    · -- The closing quote follows the word.
      obtain rfl := alone none
      subst none
      have ends : EndsPiece ('"' :: tail) := Or.inr rfl
      rw [quotedPiece_eq quotable_word ends (by omega) text rest]
      simp only [some_rest, decide_false, Bool.or_self, Bool.false_eq_true, if_false, after_word,
        List.nil_append, List.head?_cons, Quote.char, if_true]
      simp [Cursor.advance_advance]
    · obtain ⟨b, blanks', rfl⟩ := List.exists_cons_of_ne_nil none
      have blank_b : isBlank b = true := blank b List.mem_cons_self
      have not_quote : b ≠ '"' := by
        rintro rfl
        cases blank_b
      have ends : ∀ c ∈ (more ++ '"' :: tail).head?, isBlank c = false ∧ isBreak c = false := by
        intro d hd
        cases more with
        | nil =>
          cases hd
          exact ⟨rfl, rfl⟩
        | cons e more =>
          cases hd
          exact ⟨first _ rfl, (isQuotable_iff.mp (quotable_more _ List.mem_cons_self)).2.1⟩
      have after_blanks := Cursor.rest_advance_of_append after_word
      have inside' : ((c.advance word.length).advance (b :: blanks').length).column ≠ 0 := by
        change c.column + _ + _ ≠ 0
        omega
      have word_ends : EndsPiece (b :: blanks' ++ (more ++ '"' :: tail)) := Or.inl blank_b
      rw [quotedPiece_eq quotable_word word_ends (by omega) text rest]
      simp only [some_rest, decide_false, Bool.or_self, Bool.false_eq_true, if_false, after_word,
        List.cons_append, List.head?_cons, Quote.char, Option.some.injEq, not_quote]
      rw [take_eq blank ends (by omega) rfl after_word]
      dsimp only
      rw [ih quotable_more (by rw [List.length_cons] at fuel; omega) _ inside' after_blanks]
      simp [Gap.text, Cursor.advance_advance, Nat.add_assoc, Nat.add_left_comm 1]

/-- **A quotable text** between double quotes is read as it is. -/
theorem quotedScalar_eq {t tail : Text} (quotable : Quotable t) {c : Cursor}
    (fuel : t.length < c.bound) (rest : c.rest = '"' :: (t ++ '"' :: tail)) :
    quotedScalar .double c = some ⟨t, c.advance (t.length + 2), false⟩ := by
  have inside : (c.advance 1).column ≠ 0 := Nat.succ_ne_zero _
  have after : (c.advance 1).rest = t ++ '"' :: tail :=
    Cursor.rest_advance_of_append (a := ['"']) rest
  rw [quotedScalar, quotedPieces_eq quotable fuel [] inside after, Cursor.advance_advance,
    Nat.add_comm 1]
  rfl

end Yaml

end MessageDocs
