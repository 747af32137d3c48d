import MessageDocs.Proofs.Text.Split

/-! # The first lines of a text

A text can be ended after any of its line feeds. What stands before has the lines that it had in the
text.

* `Text.firstLines` is the part of a text up to its `n`-th line feed, or all of it.
* `Text.lines_firstLines`: its lines are the first `n` lines.
-/

set_option autoImplicit false

namespace MessageDocs.Text

/-- The first `n` lines of a text, as they are written. -/
def firstLines : Nat → Text → Text
  | 0, _ => []
  | _ + 1, [] => []
  | n + 1, c :: t => c :: firstLines (if c = '\n' then n else n + 1) t

theorem split_cons_of_pos {cut : Char → Bool} {c : Char} (h : cut c = true) (t : Text) :
    split cut (c :: t) = [] :: split cut t := by
  rw [split, if_pos h]

/-- The pieces between line feeds that are left: the first ones, and nothing after the last of
their line feeds. -/
theorem split_firstLines (n : Nat) (t : Text) :
    split (· == '\n') (firstLines n t) =
      if n < (split (· == '\n') t).length then (split (· == '\n') t).take n ++ [[]]
      else split (· == '\n') t := by
  induction t generalizing n with
  | nil => cases n <;> simp [firstLines, split]
  | cons c t ih =>
    cases n with
    | zero =>
      rw [if_pos (List.length_pos_of_ne_nil (split_ne_nil _ _))]
      rfl
    | succ n =>
      rw [firstLines]
      by_cases feed : c = '\n'
      · have ends : (c == '\n') = true := by simpa using feed
        rw [if_pos feed, @split_cons_of_pos (· == '\n') c ends,
          @split_cons_of_pos (· == '\n') c ends, ih, List.length_cons, List.take_succ_cons]
        by_cases more : n < (split (· == '\n') t).length
        · rw [if_pos more, if_pos (by omega)]
          rfl
        · rw [if_neg more, if_neg (by omega)]
      · have other : (c == '\n') = false := by simpa using feed
        obtain ⟨piece, pieces, here, there⟩ := @split_cons_of_neg (· == '\n') c other t
        obtain ⟨piece', pieces', here', there'⟩ :=
          @split_cons_of_neg (· == '\n') c other (firstLines (n + 1) t)
        rw [if_neg feed, there, there']
        rw [ih, here] at here'
        by_cases more : n + 1 < (piece :: pieces).length
        · rw [if_pos more] at here'
          cases here'
          exact (if_pos more).symm
        · rw [if_neg more] at here'
          cases here'
          exact (if_neg more).symm

/-- Lines are the pieces with a line feed after them, and the last piece unless it is empty. -/
theorem lines_eq_of_split {t last : Text} {ended : List Text}
    (h : split (· == '\n') t = ended ++ [last]) :
    lines t = ended.map dropReturn ++ (if last = [] then [] else [last]) := by
  rw [lines, h, List.dropLast_concat, List.getLast?_concat]
  cases last with
  | nil => exact (List.append_nil _).symm
  | cons c last => rfl

/-- **The lines of the first lines** are the first lines. -/
theorem lines_firstLines (n : Nat) (t : Text) : lines (firstLines n t) = (lines t).take n := by
  obtain ⟨ended, last, pieces⟩ : ∃ ended last, split (· == '\n') t = ended ++ [last] :=
    ⟨_, _, (List.dropLast_concat_getLast (split_ne_nil _ t)).symm⟩
  have left := split_firstLines n t
  rw [pieces, List.length_append, List.length_singleton] at left
  by_cases more : n < ended.length + 1
  · rw [if_pos more, List.take_append_of_le_length (by omega)] at left
    rw [lines_eq_of_split left, lines_eq_of_split pieces, if_pos rfl, List.append_nil,
      List.take_append_of_le_length (by rw [List.length_map]; omega), List.map_take]
  · rw [if_neg more] at left
    rw [lines_eq_of_split left, lines_eq_of_split pieces, List.take_of_length_le]
    rw [List.length_append, List.length_map]
    split <;> simp <;> omega

/-- There are not more lines than characters, so with enough lines nothing is cut off. -/
theorem firstLines_eq_self (t : Text) : firstLines (t.length + 1) t = t := by
  have enough : ∀ (t : Text) (n : Nat), t.length < n → firstLines n t = t := by
    intro t
    induction t with
    | nil =>
      intro n _
      cases n <;> rfl
    | cons c t ih =>
      intro n long
      cases n with
      | zero => omega
      | succ n =>
        rw [List.length_cons] at long
        rw [firstLines, ih]
        split <;> omega
  exact enough t _ (Nat.lt_succ_self _)

end MessageDocs.Text
