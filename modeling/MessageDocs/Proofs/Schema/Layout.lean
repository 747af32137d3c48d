import Mathlib.Data.List.Basic
import Mathlib.Data.List.Pairwise
import Mathlib.Data.List.TakeWhile
import MessageDocs.Schema.Layout

/-! # The layout as one pass over the lines

`Layout.ofLines` cuts the lines at two places. The same layout comes out of a single pass that looks
at each line once and remembers in which of three stages it is; a line that ends a stage is looked
at again in the next one.

* `Stage.pass_eq_ofLines`: the pass yields the layout.
* `Layout.exists_append_body`: the lines are blank ones, the header block and the body, and the two
  cuts are the only ones possible.
-/

set_option autoImplicit false

namespace MessageDocs.Schema

/-! ## Numbers -/

theorem numberFrom_append (n : Nat) (a b : List Text) :
    NumberedLine.numberFrom n (a ++ b) =
      NumberedLine.numberFrom n a ++ NumberedLine.numberFrom (n + a.length) b := by
  induction a generalizing n with
  | nil => rfl
  | cons line a ih =>
    rw [List.cons_append, NumberedLine.numberFrom, ih, List.length_cons]
    rw [show n + 1 + a.length = n + (a.length + 1) by omega]
    rfl

theorem text_mem_of_mem_numberFrom {n : Nat} {lines : List Text} {l : NumberedLine}
    (h : l ∈ NumberedLine.numberFrom n lines) : l.text ∈ lines := by
  induction lines generalizing n with
  | nil => cases h
  | cons line lines ih =>
    rcases List.mem_cons.mp h with rfl | h
    · exact List.mem_cons_self
    · exact List.mem_cons_of_mem _ (ih h)

theorem map_numberFrom {β : Type} (f : Text → β) (n : Nat) (lines : List Text) :
    (NumberedLine.numberFrom n lines).map (fun l => f l.text) = lines.map f := by
  induction lines generalizing n with
  | nil => rfl
  | cons line lines ih =>
    rw [NumberedLine.numberFrom, List.map_cons, ih]
    rfl

theorem numberFrom_take (k n : Nat) (lines : List Text) :
    NumberedLine.numberFrom k (lines.take n) = (NumberedLine.numberFrom k lines).take n := by
  induction lines generalizing k n with
  | nil => simp [NumberedLine.numberFrom]
  | cons line lines ih =>
    cases n with
    | zero => rfl
    | succ n =>
      rw [List.take_succ_cons, NumberedLine.numberFrom, ih]
      rfl

theorem numberFrom_length (k : Nat) (lines : List Text) :
    (NumberedLine.numberFrom k lines).length = lines.length := by
  induction lines generalizing k with
  | nil => rfl
  | cons line lines ih => exact congrArg (· + 1) (ih (k + 1))

theorem number_eq {k : Nat} {lines : List Text} {before after : List NumberedLine}
    {l : NumberedLine} (h : NumberedLine.numberFrom k lines = before ++ l :: after) :
    l.number = k + before.length := by
  induction before generalizing k lines with
  | nil =>
    cases lines with
    | nil => cases h
    | cons line lines =>
      cases h
      rfl
  | cons first before ih =>
    cases lines with
    | nil => cases h
    | cons line lines =>
      obtain ⟨-, rest⟩ := List.cons.inj h
      rw [ih rest, List.length_cons]
      omega

/-! ## Stages -/

/-- How far a pass over the lines of a schema has come. -/
inductive Stage where
  /-- Before the first line that is not blank. -/
  | seeking
  /-- Among the comment lines of the header. -/
  | header
  /-- After the header. -/
  | body
  deriving DecidableEq, Repr

namespace Stage

/-- The layout with one more line at the start of its header. -/
def addHeader (l : NumberedLine) (layout : Layout) : Layout :=
  { layout with header := Text.trim l.text.tail :: layout.header }

/-- The layout of lines that are looked at one by one from a stage on. -/
def pass : Stage → List NumberedLine → Layout
  | _, [] => ⟨[], []⟩
  | seeking, l :: lines =>
    if l.isBlank then pass seeking lines
    else if l.isComment then addHeader l (pass header lines)
    else ⟨[], l :: (pass body lines).body⟩
  | header, l :: lines =>
    if l.isComment then addHeader l (pass header lines)
    else ⟨[], l :: (pass body lines).body⟩
  | body, l :: lines => ⟨[], l :: (pass body lines).body⟩

theorem pass_body (lines : List NumberedLine) : pass body lines = ⟨[], lines⟩ := by
  induction lines with
  | nil => rfl
  | cons l lines ih => rw [pass, ih]

theorem pass_header (lines : List NumberedLine) :
    pass header lines =
      ⟨(lines.takeWhile NumberedLine.isComment).map fun l => Text.trim l.text.tail,
        lines.dropWhile NumberedLine.isComment⟩ := by
  induction lines with
  | nil => rfl
  | cons l lines ih =>
    rw [pass, pass_body]
    by_cases h : l.isComment = true
    · rw [if_pos h, ih, List.takeWhile_cons_of_pos h, List.dropWhile_cons_of_pos h]
      rfl
    · rw [if_neg h, List.takeWhile_cons_of_neg h, List.dropWhile_cons_of_neg h]
      rfl

/-- **The pass yields the layout.** -/
theorem pass_eq_ofLines (lines : List NumberedLine) :
    pass seeking lines = Layout.ofLines lines := by
  induction lines with
  | nil => rfl
  | cons l lines ih =>
    rw [pass]
    by_cases blank : l.isBlank = true
    · rw [if_pos blank, ih, Layout.ofLines, Layout.ofLines, List.dropWhile_cons_of_pos blank]
    · have step := pass_header (l :: lines)
      rw [pass] at step
      rw [if_neg blank, step, Layout.ofLines, List.dropWhile_cons_of_neg blank]

end Stage

/-! ## The two cuts -/

theorem head?_dropWhile_false {α : Type} (p : α → Bool) (xs : List α) :
    ∀ x ∈ (xs.dropWhile p).head?, p x = false := by
  intro x hx
  have := List.head?_dropWhile_not p xs
  rw [hx] at this
  simpa using this

theorem takeWhile_eq_nil {lines : List NumberedLine} (h : ∀ l ∈ lines, l.isComment = false) :
    lines.takeWhile NumberedLine.isComment = [] := by
  cases lines with
  | nil => rfl
  | cons l lines => exact List.takeWhile_cons_of_neg (by simp [h l List.mem_cons_self])

/-- The lines are blank ones, then a block of comment lines, then the body: the block starts at the
first line that is not blank and goes on as long as there are comment lines. -/
theorem Layout.exists_append_body (lines : List NumberedLine) :
    ∃ blanks block, lines = blanks ++ block ++ (Layout.ofLines lines).body ∧
      (Layout.ofLines lines).header = block.map (fun l => Text.trim l.text.tail) ∧
      (∀ l ∈ blanks, l.isBlank = true) ∧ (∀ l ∈ block, l.isComment = true) ∧
      (∀ l ∈ (block ++ (Layout.ofLines lines).body).head?, l.isBlank = false) ∧
      ∀ l ∈ (Layout.ofLines lines).body.head?, l.isComment = false := by
  have rest : (lines.dropWhile NumberedLine.isBlank).takeWhile NumberedLine.isComment ++
      (Layout.ofLines lines).body = lines.dropWhile NumberedLine.isBlank :=
    List.takeWhile_append_dropWhile
  refine ⟨lines.takeWhile NumberedLine.isBlank,
    (lines.dropWhile NumberedLine.isBlank).takeWhile NumberedLine.isComment,
    ?_, rfl, ?_, ?_, ?_, ?_⟩
  · rw [List.append_assoc, rest, List.takeWhile_append_dropWhile]
  · exact fun l hl => List.mem_takeWhile_imp hl
  · exact fun l hl => List.mem_takeWhile_imp hl
  · rw [rest]
    exact head?_dropWhile_false _ _
  · exact head?_dropWhile_false _ _

end MessageDocs.Schema
