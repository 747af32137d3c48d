import Mathlib.Data.List.Infix
import Mathlib.Data.List.TakeWhile
import MessageDocs.Header

/-! # Cutting a text and putting it together again

* `Text.split_append_cons`: a cut at a character leaves the pieces on either side as they are.
* `Text.cutAt_eq_some_iff` and `Text.afterLast_append_cons` place the first and the last mark.
* `Text.lines_endLines`: the lines of a text are those that it was put together from.
-/

set_option autoImplicit false

namespace MessageDocs.Text

variable {cut : Char → Bool} {mark c : Char} {t a b : Text}

/-! ## Pieces -/

theorem split_eq_splitOnP (cut : Char → Bool) (t : Text) : split cut t = t.splitOnP cut := by
  induction t with
  | nil => rfl
  | cons c t ih =>
    rw [split, List.splitOnP_cons_eq_if_modifyHead, ← ih]
    by_cases h : cut c = true
    · rw [if_pos h, if_pos h]
    · obtain ⟨piece, pieces, eq⟩ := List.exists_cons_of_ne_nil (List.splitOnP_ne_nil cut t)
      rw [if_neg h, if_neg h, ih, eq]
      rfl

theorem split_ne_nil (cut : Char → Bool) (t : Text) : split cut t ≠ [] := by
  rw [split_eq_splitOnP]
  exact List.splitOnP_ne_nil cut t

theorem split_append_cons (h : cut c = true) (a b : Text) :
    split cut (a ++ c :: b) = split cut a ++ split cut b := by
  simp only [split_eq_splitOnP]
  exact List.splitOnP_append_cons a b h

theorem split_eq_singleton (h : ∀ c ∈ t, cut c = false) : split cut t = [t] := by
  rw [split_eq_splitOnP]
  exact List.splitOnP_eq_singleton h

theorem split_eq_singleton_of_not_mem (h : mark ∉ t) : split (· == mark) t = [t] := by
  apply split_eq_singleton
  intro c hc
  rw [beq_eq_false_iff_ne]
  rintro rfl
  exact h hc

theorem split_cons_of_neg (h : cut c = false) (t : Text) :
    ∃ piece pieces, split cut t = piece :: pieces ∧
      split cut (c :: t) = (c :: piece) :: pieces := by
  obtain ⟨piece, pieces, pieces_eq⟩ := List.exists_cons_of_ne_nil (split_ne_nil cut t)
  refine ⟨piece, pieces, pieces_eq, ?_⟩
  rw [split, if_neg (by simp [h]), pieces_eq]

/-- A piece has no character that the text is cut at. -/
theorem not_cut_of_mem_split {piece : Text} (h : piece ∈ split cut t) (hc : c ∈ piece) :
    cut c = false := by
  induction t generalizing piece with
  | nil =>
    rw [List.mem_singleton.mp h] at hc
    cases hc
  | cons d t ih =>
    by_cases hd : cut d = true
    · rw [split, if_pos hd] at h
      rcases List.mem_cons.mp h with rfl | h
      · cases hc
      · exact ih h hc
    · rw [Bool.not_eq_true] at hd
      obtain ⟨first, others, eq, eq'⟩ := split_cons_of_neg hd t
      rw [eq'] at h
      rcases List.mem_cons.mp h with rfl | h
      · rcases List.mem_cons.mp hc with rfl | hc
        · exact hd
        · exact ih (eq ▸ List.mem_cons_self) hc
      · exact ih (eq ▸ List.mem_cons_of_mem _ h) hc

theorem not_mem_of_mem_split {piece : Text} (h : piece ∈ split (· == mark) t) : mark ∉ piece := by
  intro hc
  have := not_cut_of_mem_split h hc
  simp at this

theorem split_eq_singleton_iff : split (· == mark) t = [a] ↔ t = a ∧ mark ∉ a := by
  constructor
  · intro h
    by_cases marked : mark ∈ t
    · obtain ⟨l, r, rfl, first⟩ := List.eq_append_cons_of_mem marked
      rw [split_append_cons (by simp), split_eq_singleton_of_not_mem first] at h
      exact absurd (List.cons.inj h).2 (split_ne_nil _ r)
    · rw [split_eq_singleton_of_not_mem marked] at h
      cases h
      exact ⟨rfl, marked⟩
  · rintro ⟨rfl, unmarked⟩
    exact split_eq_singleton_of_not_mem unmarked

theorem split_eq_pair_iff :
    split (· == mark) t = [a, b] ↔ t = a ++ mark :: b ∧ mark ∉ a ∧ mark ∉ b := by
  constructor
  · intro h
    by_cases marked : mark ∈ t
    · obtain ⟨l, r, rfl, first⟩ := List.eq_append_cons_of_mem marked
      rw [split_append_cons (by simp), split_eq_singleton_of_not_mem first] at h
      obtain ⟨rfl, rest⟩ := List.cons.inj h
      obtain ⟨rfl, last⟩ := split_eq_singleton_iff.mp rest
      exact ⟨rfl, first, last⟩
    · rw [split_eq_singleton_of_not_mem marked] at h
      cases h
  · rintro ⟨rfl, first, last⟩
    rw [split_append_cons (by simp), split_eq_singleton_of_not_mem first,
      split_eq_singleton_of_not_mem last]
    rfl

/-- The first piece begins the text, and every piece stands in it. -/
theorem infix_of_mem_split (t : Text) :
    (∀ piece ∈ (split cut t).head?, piece <+: t) ∧ ∀ piece ∈ split cut t, piece <:+: t := by
  induction t with
  | nil => simp [split]
  | cons d t ih =>
    by_cases hd : cut d = true
    · rw [split, if_pos hd]
      refine ⟨by simp, ?_⟩
      intro piece hp
      rcases List.mem_cons.mp hp with rfl | hp
      · exact List.nil_infix
      · exact (ih.2 piece hp).trans (List.suffix_cons d t).isInfix
    · rw [Bool.not_eq_true] at hd
      obtain ⟨first, others, eq, eq'⟩ := split_cons_of_neg hd t
      rw [eq'] at *
      have start : first <+: t := ih.1 first (by rw [eq]; rfl)
      refine ⟨?_, ?_⟩
      · intro piece hp
        cases hp
        exact (List.prefix_cons_inj d).mpr start
      · intro piece hp
        rcases List.mem_cons.mp hp with rfl | hp
        · exact ((List.prefix_cons_inj d).mpr start).isInfix
        · have inside := ih.2 piece (eq ▸ List.mem_cons_of_mem _ hp)
          exact inside.trans (List.suffix_cons d t).isInfix

theorem join_cons_cons (separator a b : Text) (pieces : List Text) :
    join separator (a :: b :: pieces) = a ++ separator ++ join separator (b :: pieces) :=
  List.intercalate_cons_cons

theorem mem_join {separator : Text} {pieces : List Text} (h : c ∈ join separator pieces) :
    c ∈ separator ∨ ∃ piece ∈ pieces, c ∈ piece := by
  induction pieces with
  | nil => cases h
  | cons piece pieces ih =>
    cases pieces with
    | nil =>
      rw [join, List.intercalate_singleton] at h
      exact Or.inr ⟨piece, List.mem_cons_self, h⟩
    | cons next pieces =>
      rw [join_cons_cons] at h
      rcases List.mem_append.mp h with h | h
      · rcases List.mem_append.mp h with h | h
        · exact Or.inr ⟨piece, List.mem_cons_self, h⟩
        · exact Or.inl h
      · exact (ih h).imp_right fun ⟨p, hp, hc⟩ => ⟨p, List.mem_cons_of_mem _ hp, hc⟩

/-! ## The first and the last mark -/

theorem bne_of_not_mem (h : mark ∉ t) : ∀ c ∈ t, (c != mark) = true := by
  intro c hc
  simp only [bne_iff_ne]
  rintro rfl
  exact h hc

theorem takeWhile_append_cons (h : mark ∉ a) (b : Text) :
    (a ++ mark :: b).takeWhile (· != mark) = a := by
  rw [List.takeWhile_append_of_pos (bne_of_not_mem h)]
  simp

theorem dropWhile_append_cons (h : mark ∉ a) (b : Text) :
    (a ++ mark :: b).dropWhile (· != mark) = mark :: b := by
  rw [List.dropWhile_append_of_pos (bne_of_not_mem h)]
  simp

theorem takeWhile_eq_self (h : mark ∉ t) : t.takeWhile (· != mark) = t :=
  List.takeWhile_eq_self_iff.mpr (bne_of_not_mem h)

theorem not_mem_takeWhile (mark : Char) (t : Text) : mark ∉ t.takeWhile (· != mark) := by
  intro h
  have := List.mem_takeWhile_imp h
  simp at this

theorem cutAt_append_cons (h : mark ∉ a) (b : Text) :
    cutAt mark (a ++ mark :: b) = some (a, b) := by
  unfold cutAt
  rw [dropWhile_append_cons h, takeWhile_append_cons h]

theorem cutAt_eq_none_iff : cutAt mark t = none ↔ mark ∉ t := by
  constructor
  · intro h marked
    obtain ⟨a, b, rfl, first⟩ := List.eq_append_cons_of_mem marked
    rw [cutAt_append_cons first] at h
    cases h
  · intro h
    have other : t.dropWhile (· != mark) = [] :=
      List.dropWhile_eq_nil_iff.mpr (bne_of_not_mem h)
    rw [cutAt, other]

theorem cutAt_eq_some_iff : cutAt mark t = some (a, b) ↔ mark ∉ a ∧ t = a ++ mark :: b := by
  constructor
  · intro h
    have marked : mark ∈ t := by
      by_contra other
      rw [cutAt_eq_none_iff.mpr other] at h
      cases h
    obtain ⟨before, after, rfl, first⟩ := List.eq_append_cons_of_mem marked
    rw [cutAt_append_cons first, Option.some.injEq, Prod.mk.injEq] at h
    obtain ⟨rfl, rfl⟩ := h
    exact ⟨first, rfl⟩
  · rintro ⟨first, rfl⟩
    exact cutAt_append_cons first b

theorem not_mem_afterLast (mark : Char) (t : Text) : mark ∉ afterLast mark t := by
  intro h
  exact not_mem_takeWhile mark t.reverse (List.mem_reverse.mp h)

theorem afterLast_suffix (mark : Char) (t : Text) : afterLast mark t <:+ t := by
  rw [afterLast, ← List.reverse_prefix, List.reverse_reverse]
  exact List.takeWhile_prefix _

theorem afterLast_append_cons (h : mark ∉ b) (a : Text) : afterLast mark (a ++ mark :: b) = b := by
  have other := bne_of_not_mem (t := b.reverse) (fun m => h (List.mem_reverse.mp m))
  rw [afterLast, List.reverse_append, List.reverse_cons, List.append_assoc,
    List.takeWhile_append_of_pos other]
  simp

/-! ## What follows a start -/

theorem after?_eq_some_iff {start t rest : Text} :
    after? start t = some rest ↔ t = start ++ rest := by
  induction start generalizing t with
  | nil =>
    rw [after?, List.isPrefixOf?, Option.some.injEq]
    rfl
  | cons c start ih =>
    cases t with
    | nil => simp [after?, List.isPrefixOf?]
    | cons d t =>
      rw [after?, List.isPrefixOf?, ← after?]
      by_cases same : c = d
      · rw [same, if_pos (by simp), ih]
        simp
      · rw [if_neg (by simp [same])]
        simp [Ne.symm same]

/-! ## Lines -/

theorem endLines_cons (line : Text) (lines : List Text) :
    Header.endLines (line :: lines) = line ++ '\n' :: Header.endLines lines := by
  simp [Header.endLines]

theorem endLines_append (lines more : List Text) :
    Header.endLines (lines ++ more) = Header.endLines lines ++ Header.endLines more := by
  simp [Header.endLines]

theorem split_endLines_append {lines : List Text} (h : ∀ line ∈ lines, '\n' ∉ line) (t : Text) :
    split (· == '\n') (Header.endLines lines ++ t) = lines ++ split (· == '\n') t := by
  induction lines with
  | nil => rfl
  | cons line lines ih =>
    obtain ⟨here, rest⟩ := List.forall_mem_cons.mp h
    rw [endLines_cons, List.append_assoc, List.cons_append, split_append_cons (by rfl),
      split_eq_singleton_of_not_mem here, ih rest]
    rfl

theorem split_endLines {lines : List Text} (h : ∀ line ∈ lines, '\n' ∉ line) :
    split (· == '\n') (Header.endLines lines) = lines ++ [[]] := by
  have := split_endLines_append h []
  rwa [List.append_nil] at this

/-- Lines without a line feed or a carriage return are the lines of what they are put together
to. -/
theorem lines_endLines {ls : List Text} (feed : ∀ l ∈ ls, '\n' ∉ l) (ret : ∀ l ∈ ls, '\r' ∉ l) :
    lines (Header.endLines ls) = ls := by
  have kept : ls.map dropReturn = ls := by
    refine (List.map_congr_left ?_).trans (List.map_id ls)
    intro l hl
    exact if_neg fun last => ret l hl (List.mem_of_getLast? last)
  rw [lines, split_endLines feed, List.getLast?_concat, List.dropLast_concat, kept]

/-! ## Lengths in bytes -/

@[simp] theorem byteLength_nil : byteLength [] = 0 := rfl

@[simp] theorem byteLength_cons (c : Char) (t : Text) :
    byteLength (c :: t) = c.utf8Size + byteLength t := rfl

theorem byteLength_append (s t : Text) : byteLength (s ++ t) = byteLength s + byteLength t := by
  induction s with
  | nil => simp
  | cons c s ih =>
    rw [List.cons_append, byteLength_cons, byteLength_cons, ih]
    omega

theorem byteLength_pos {t : Text} (h : t ≠ []) : 0 < t.byteLength := by
  cases t with
  | nil => exact absurd rfl h
  | cons c t =>
    have := c.utf8Size_pos
    rw [byteLength_cons]
    omega

end MessageDocs.Text
