import Mathlib.Algebra.GroupWithZero.Nat
import MessageDocs.Page.Table
import MessageDocs.Proofs.Text.Words
import MessageDocs.Text.Lowercase

/-! # Cells and rows

A row of a table is one line, and the `|` characters in it that do not follow a backslash separate
its cells.

* `Text.IsLine`: a text without ends of lines; lower case keeps a word on its line.
* `Page.Table.bars` counts the separators: an escaped text has none by `Page.Table.bars_escape`, and
  a row one between two cells by `Page.Table.bars_line`.
* `Page.Table.render_eq_endLines`: the lines of a table.
-/

set_option autoImplicit false

namespace MessageDocs

open Text

/-! ## Texts on one line -/

/-- A text on one line: its only white space is blanks. -/
def Text.IsLine (t : Text) : Prop :=
  ∀ c ∈ t, isSpace c = true → c = ' '

instance (t : Text) : Decidable (IsLine t) :=
  decidable_of_iff (t.all (fun c => !isSpace c || c == ' ') = true)
    (by simp [IsLine, imp_iff_not_or])

namespace Text

variable {a b t : Text}

theorem IsLine.append (ha : IsLine a) (hb : IsLine b) : IsLine (a ++ b) := by
  intro c hc
  rcases List.mem_append.mp hc with hc | hc
  · exact ha c hc
  · exact hb c hc

theorem IsLine.not_mem (h : IsLine t) : '\n' ∉ t := by
  intro feed
  have blank := h '\n' feed (by decide)
  exact absurd blank (by decide)

theorem isLine_nil : IsLine [] := by
  simp [IsLine]

theorem IsLine.getD {t? : Option Text} (h : ∀ u ∈ t?, IsLine u) : IsLine (t?.getD []) := by
  cases t? with
  | none => exact isLine_nil
  | some t => exact h t rfl

theorem IsSpaced.isLine (h : IsSpaced t) : IsLine t :=
  h.blanks

theorem isLine_of_solid (h : ∀ c ∈ t, isSpace c = false) : IsLine t := by
  intro c hc space
  rw [h c hc] at space
  cases space

theorem isLine_join {separator : Text} {pieces : List Text} (hs : IsLine separator)
    (hp : ∀ piece ∈ pieces, IsLine piece) : IsLine (join separator pieces) := by
  intro c hc
  rcases mem_join hc with hc | ⟨piece, listed, hc⟩
  · exact hs c hc
  · exact hp piece listed c hc

/-- No character has white space for its lower case, unless it is white space. -/
theorem isSpace_lowerChar {c : Char} (h : isSpace c = false) : isSpace (lowerChar c) = false := by
  have runs : ∀ run ∈ caseRuns, ∀ d ∈ List.range (run.last - run.first + 1),
      isSpace (Char.ofNat (run.lower + d)) = false := by decide +kernel
  unfold lowerChar
  split
  · next n found =>
    obtain ⟨run, listed, lower⟩ := List.exists_of_findSome?_eq_some found
    unfold CaseRun.lower? at lower
    split at lower
    · next inside =>
      cases lower
      exact runs run listed _ (List.mem_range.mpr (by omega))
    · cases lower
  · exact h

theorem isSpace_of_mem_lowerAt {before after : Text} {c d : Char} (h : isSpace c = false)
    (hd : d ∈ lowerAt before c after) : isSpace d = false := by
  unfold lowerAt at hd
  split at hd
  · rcases List.mem_pair.mp hd with rfl | rfl <;> decide
  · split at hd
    · rw [List.mem_singleton.mp hd]
      split <;> decide
    · rw [List.mem_singleton.mp hd]
      exact isSpace_lowerChar h

theorem isSpace_of_mem_lowerFrom {before : Text} (h : ∀ c ∈ t, isSpace c = false) :
    ∀ d ∈ lowerFrom before t, isSpace d = false := by
  induction t generalizing before with
  | nil => simp [lowerFrom]
  | cons c t ih =>
    obtain ⟨here, rest⟩ := List.forall_mem_cons.mp h
    intro d hd
    rcases List.mem_append.mp hd with hd | hd
    · exact isSpace_of_mem_lowerAt here hd
    · exact ih rest d hd

theorem isLine_lower (h : IsWord t) : IsLine (lower t) :=
  isLine_of_solid (isSpace_of_mem_lowerFrom h.solid)

end Text

/-! ## Separators -/

namespace Page.Table

variable {a b t : Text} {c p q : Char}

/-- The number of `|` in a text that do not follow a backslash, the text following `previous`. -/
def barsAfter (previous : Char) : Text → Nat
  | [] => 0
  | c :: t => (if c = '|' ∧ previous ≠ '\\' then 1 else 0) + barsAfter c t

def bars (t : Text) : Nat :=
  barsAfter ' ' t

/-- A row without the end of its line. -/
def line (cells : List Text) : Text :=
  join " | " cells

theorem barsAfter_congr (hp : p ≠ '\\') (hq : q ≠ '\\') (t : Text) :
    barsAfter p t = barsAfter q t := by
  cases t with
  | nil => rfl
  | cons c t => simp [barsAfter, hp, hq]

theorem barsAfter_append_cons (hc : c ≠ '|') (p : Char) (a b : Text) :
    barsAfter p (a ++ c :: b) = barsAfter p a + barsAfter c b := by
  induction a generalizing p with
  | nil => simp [barsAfter, hc]
  | cons d a ih =>
    rw [List.cons_append, barsAfter, barsAfter, ih]
    omega

theorem bars_append_cons (hc : c ≠ '|') (hc' : c ≠ '\\') (a b : Text) :
    bars (a ++ c :: b) = bars a + bars b := by
  have blank : (' ' : Char) ≠ '\\' := by decide
  rw [bars, barsAfter_append_cons hc, barsAfter_congr hc' blank b]
  rfl

theorem bars_cons (hc : c ≠ '|') (hc' : c ≠ '\\') (t : Text) : bars (c :: t) = bars t := by
  have := bars_append_cons hc hc' [] t
  rw [List.nil_append] at this
  rw [this, bars, barsAfter, Nat.zero_add]

theorem barsAfter_le_append (p : Char) (a b : Text) : barsAfter p a ≤ barsAfter p (a ++ b) := by
  induction a generalizing p with
  | nil => exact Nat.zero_le _
  | cons c a ih =>
    rw [List.cons_append, barsAfter, barsAfter]
    exact Nat.add_le_add_left (ih c) _

theorem escape_cons (c : Char) (t : Text) :
    escape (c :: t) = (if c = '|' then ['\\', '|'] else [c]) ++ escape t :=
  List.flatMap_cons

/-- **An escaped text** has no separator, whatever it follows. -/
theorem barsAfter_escape (p : Char) (t : Text) : barsAfter p (escape t) = 0 := by
  induction t generalizing p with
  | nil => rfl
  | cons c t ih =>
    rw [escape_cons]
    by_cases bar : c = '|'
    · rw [if_pos bar]
      simp [barsAfter, ih]
    · rw [if_neg bar]
      simp [barsAfter, ih, bar]

theorem bars_escape (t : Text) : bars (escape t) = 0 :=
  barsAfter_escape ' ' t

/-- A row has a separator between two cells, besides those inside its cells. -/
theorem bars_line {cells : List Text} (h : cells ≠ []) :
    bars (line cells) + 1 = cells.length + (cells.map bars).sum := by
  induction cells with
  | nil => exact absurd rfl h
  | cons cell cells ih =>
    cases cells with
    | nil =>
      have whole : line [cell] = cell := by rw [line, join, List.intercalate_singleton]
      rw [whole, List.map_singleton, List.sum_singleton, List.length_singleton, Nat.add_comm]
    | cons next cells =>
      have between : line (cell :: next :: cells) =
          cell ++ ' ' :: '|' :: ' ' :: line (next :: cells) := by
        rw [line, join_cons_cons, line]
        simp
      have separator : bars ('|' :: ' ' :: line (next :: cells)) =
          1 + bars (line (next :: cells)) := by
        rw [bars, barsAfter, if_pos (by decide), barsAfter]
        simp [bars]
      have rest := ih (by simp)
      rw [between, bars_append_cons (by decide) (by decide), separator, List.length_cons,
        List.map_cons, List.sum_cons]
      omega

theorem isLine_escape (h : IsLine t) : IsLine (escape t) := by
  intro c hc
  obtain ⟨d, hd, inside⟩ := List.mem_flatMap.mp hc
  split at inside
  · rcases List.mem_pair.mp inside with rfl | rfl <;> decide
  · rw [List.mem_singleton.mp inside]
    exact h d hd

theorem isLine_line {cells : List Text} (h : ∀ cell ∈ cells, IsLine cell) : IsLine (line cells) :=
  isLine_join (by decide) h

/-! ## The lines of tables -/

/-- The lines of a table: its header, its rule, its rows and an empty line. -/
def lines (columns : List Text) (rows : List (List Text)) : List Text :=
  (columns :: List.replicate columns.length "---".toList :: rows).map line ++ [[]]

theorem render_eq_endLines (columns : List Text) (rows : List (List Text)) :
    render columns rows = Header.endLines (lines columns rows) := by
  have each : Header.endLines (rows.map line) = (rows.map row).flatten := by
    rw [Header.endLines, List.map_map]
    rfl
  rw [lines, List.map_cons, List.map_cons, List.cons_append, List.cons_append, endLines_cons,
    endLines_cons, endLines_append, each]
  simp [render, rule, row, line, Header.endLines]

theorem isLine_of_mem_lines {columns : List Text} {rows : List (List Text)}
    (hc : IsLine (line columns)) (hr : ∀ cells ∈ rows, IsLine (line cells)) :
    ∀ l ∈ lines columns rows, IsLine l := by
  intro l hl
  rw [lines, List.map_cons, List.map_cons] at hl
  rcases List.mem_append.mp hl with hl | hl
  · rcases List.mem_cons.mp hl with rfl | hl
    · exact hc
    · rcases List.mem_cons.mp hl with rfl | hl
      · refine isLine_line fun cell listed => ?_
        rw [(List.mem_replicate.mp listed).2]
        decide
      · obtain ⟨cells, listed, rfl⟩ := List.mem_map.mp hl
        exact hr cells listed
  · rw [List.mem_singleton.mp hl]
    exact isLine_nil

end Page.Table

end MessageDocs
