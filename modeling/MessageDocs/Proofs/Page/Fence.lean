import Mathlib.Data.List.Infix
import MessageDocs.Page.Message
import MessageDocs.Proofs.Text.Words

/-! # The code block at the end of a page

The fences of a block are longer than every run of backticks in it. So its opening stands nowhere in
the block, and because a line feed ends the opening it does not overlap itself either: whatever is
written before a block, the last opening of a page is that of its block.

* `Page.Fence.replicate_infix_iff`: which runs of backticks a text has.
* `Page.Fence.text_eq_of_append_block`: a block can be told from what it is part of.
* `Page.source_recoverable`: the source of a message can be told from its page.
-/

set_option autoImplicit false

namespace MessageDocs.Page

namespace Fence

variable {n run : Nat} {t u : Text}

/-! ## Runs of backticks -/

/-- What stands on either side of a character that is not in it stands on one of them. -/
theorem infix_append_cons_iff {l a b : Text} {c : Char} (other : c ∉ l) :
    l <:+: a ++ c :: b ↔ l <:+: a ∨ l <:+: b := by
  have start : ∀ {l' : Text}, l' <+: c :: b → c ∉ l' → l' = [] := by
    intro l' h notHere
    cases l' with
    | nil => rfl
    | cons d l' =>
      obtain ⟨rfl, -⟩ := List.cons_prefix_cons.mp h
      exact absurd List.mem_cons_self notHere
  rw [List.infix_append_iff, List.infix_cons_iff]
  constructor
  · rintro (before | (here | after) | ⟨l₁, l₂, rfl, before, here⟩)
    · exact Or.inl before
    · rw [start here other]
      exact Or.inl List.nil_infix
    · exact Or.inr after
    · rw [start here fun h => other (List.mem_append_right l₁ h), List.append_nil]
      exact Or.inl before.isInfix
  · rintro (before | after)
    · exact Or.inl before
    · exact Or.inr (Or.inl (Or.inr after))

theorem replicate_infix_replicate :
    List.replicate n tick <:+: List.replicate run tick ↔ n ≤ run := by
  rw [List.infix_replicate_iff, List.length_replicate]
  exact and_iff_left rfl

theorem replicate_infix_iff_from :
    List.replicate n tick <:+: List.replicate run tick ++ t ↔ n ≤ longestRunFrom run t := by
  induction t generalizing run with
  | nil => rw [List.append_nil, replicate_infix_replicate, longestRunFrom]
  | cons c t ih =>
    rw [longestRunFrom]
    split
    · next here =>
      rw [← ih, List.replicate_succ', List.append_assoc, here]
      rfl
    · next other =>
      have rest := @ih 0
      rw [List.replicate_zero, List.nil_append] at rest
      have apart : c ∉ List.replicate n tick := fun h => other (List.eq_of_mem_replicate h)
      rw [infix_append_cons_iff apart, replicate_infix_replicate, rest]
      omega

/-- **The runs of backticks** in a text are those up to the longest. -/
theorem replicate_infix_iff : List.replicate n tick <:+: t ↔ n ≤ longestRun t :=
  @replicate_infix_iff_from n 0 t

/-! ## Fences -/

/-- What surrounds a block that it does not occur in: at least three backticks, and more than stand
together anywhere in the block. -/
structure Encloses (fence t : Text) : Prop where
  ticks : fence = List.replicate fence.length tick
  three : 3 ≤ fence.length
  longer : ∀ n, List.replicate n tick <:+: t → n < fence.length

theorem Encloses.not_inside {fence : Text} (h : Encloses fence t) : ¬fence <:+: t := by
  intro inside
  rw [h.ticks] at inside
  exact absurd (h.longer _ inside) (Nat.lt_irrefl _)

theorem encloses_fence (t : Text) : Encloses (fence t) t := by
  have length : (fence t).length = max (longestRun t) 2 + 1 := List.length_replicate
  refine ⟨by rw [length, fence], by omega, ?_⟩
  intro n inside
  have := replicate_infix_iff.mp inside
  omega

/-! ## Blocks -/

section

variable {body : Text} (plain : '\n' ∉ body)

include plain

/-- A line does not overlap itself, because it ends with its only line feed: where a text begins
with it, it stands next behind it. -/
theorem eq_of_line_append {t u x : Text} (last : ¬body ++ ['\n'] <:+: t)
    (eq : body ++ '\n' :: t = x ++ (body ++ '\n' :: u)) : t = u := by
  have cut := Text.cutAt_append_cons plain t
  rw [eq] at cut
  by_cases feed : '\n' ∈ x
  · obtain ⟨first, rest, rfl, noFeed⟩ := List.eq_append_cons_of_mem feed
    rw [List.append_assoc, List.cons_append, Text.cutAt_append_cons noFeed] at cut
    cases cut
    exact absurd ⟨rest, u, by simp⟩ last
  · have noFeed : '\n' ∉ x ++ body := by simp [feed, plain]
    rw [← List.append_assoc, Text.cutAt_append_cons noFeed] at cut
    exact (Prod.mk.inj (Option.some.inj cut)).2.symm

/-- There is one place where a line stands last. -/
theorem eq_of_last_line {a b t u : Text} (ht : ¬body ++ ['\n'] <:+: t)
    (hu : ¬body ++ ['\n'] <:+: u) (eq : a ++ (body ++ '\n' :: t) = b ++ (body ++ '\n' :: u)) :
    t = u := by
  rcases List.append_eq_append_iff.mp eq with ⟨x, -, later⟩ | ⟨x, -, later⟩
  · exact eq_of_line_append plain ht later
  · exact (eq_of_line_append plain hu later).symm

end

/-- **A block** can be told from the text that it ends. -/
theorem text_eq_of_append_block {a b language : Text} (plain : '\n' ∉ language)
    (eq : a ++ block language t = b ++ block language u) : t = u := by
  have noFeed : ∀ t, '\n' ∉ fence t := by
    intro t feed
    cases List.eq_of_mem_replicate feed
  have parts : ∀ a t, a ++ block language t =
      (a ++ (fence t ++ language ++ '\n' :: t)) ++ '\n' :: fence t ++ ['\n'] := by
    intro a t
    simp [block]
  rw [parts, parts] at eq
  have lines := List.append_cancel_right eq
  -- The closing fence follows the last line feed but one.
  have same : fence t = fence u := by
    rw [← Text.afterLast_append_cons (noFeed t), lines, Text.afterLast_append_cons (noFeed u)]
  have apart : ∀ v, fence v = fence t → ¬fence t ++ language ++ ['\n'] <:+: v := by
    intro v closing inside
    refine (encloses_fence v).not_inside (List.IsInfix.trans ?_ inside)
    rw [closing, List.append_assoc]
    exact List.infix_append_left
  rw [← same] at lines
  have opening : '\n' ∉ fence t ++ language := by simp [noFeed, plain]
  exact eq_of_last_line opening (apart t rfl) (apart u same.symm) (List.append_cancel_right lines)

end Fence

/-- **A page** ends with the source of its message between two fences, and no two pages that differ
in the source are the same, whatever stands before it. -/
theorem source_recoverable (context : Context) (m : Message) :
    (∃ blank, m.source = Text.trimEnd m.source ++ blank ∧ ∀ c ∈ blank, Text.isSpace c = true) ∧
    (∀ c ∈ (Text.trimEnd m.source).getLast?, Text.isSpace c = false) ∧
    (∃ before fence, render context m =
        before ++ (fence ++ "c\n" ++ Text.trimEnd m.source ++ "\n" ++ fence ++ "\n") ∧
      Fence.Encloses fence (Text.trimEnd m.source) ∧ ¬fence <:+: Text.trimEnd m.source) ∧
    ∀ (context' : Context) (m' : Message), render context m = render context' m' →
      Text.trimEnd m.source = Text.trimEnd m'.source := by
  have page : ∀ context m, Fence.block "c" (Text.trimEnd m.source) <:+ render context m := by
    intro context m
    have section_end : Fence.block "c" (Text.trimEnd m.source) <:+ sourceSection m :=
      List.suffix_append _ _
    unfold render
    exact List.suffix_append_of_suffix section_end
  obtain ⟨before, eq⟩ := page context m
  refine ⟨Text.exists_trimEnd m.source, Text.trimEnd_stop m.source, ?_, ?_⟩
  · have encloses := Fence.encloses_fence (Text.trimEnd m.source)
    refine ⟨before, _, ?_, encloses, encloses.not_inside⟩
    rw [← eq, Fence.block]
    simp
  · intro context' m' same
    obtain ⟨before', eq'⟩ := page context' m'
    rw [← eq, ← eq'] at same
    exact Fence.text_eq_of_append_block (by decide) same

/-- A message whose description has a block with fences as long as those of its source. -/
def fencedMessage (source : Text) : Message where
  name := "A"
  path := ⟨"A.msg"⟩
  short := "Short."
  long := "\x60\x60\x60\x60c\nuint8 y\n\x60\x60\x60\x60\n"
  fields := []
  enums := []
  constants := []
  source := source

def fencedContext (title : Text) : Context where
  known := NameMap.empty
  title := title

def fenced : Message :=
  fencedMessage "uint8 x # \x60\x60\x60\n\n"

def fencedLess : Message :=
  fencedMessage "uint8 x # \x60\x60\x60 "

theorem fenced_source_recoverable :
    fenced.source ≠ fencedLess.source ∧
      render (fencedContext "One") fenced = render (fencedContext "Two") fencedLess ∧
      Text.trimEnd fenced.source = Text.trimEnd fencedLess.source ∧
      ∃ before fence, render (fencedContext "One") fenced =
          before ++ (fence ++ "c\n" ++ Text.trimEnd fenced.source ++ "\n" ++ fence ++ "\n") ∧
        Fence.Encloses fence (Text.trimEnd fenced.source) := by
  obtain ⟨-, -, ⟨before, fence, page, encloses, -⟩, recover⟩ :=
    source_recoverable (fencedContext "One") fenced
  have same : render (fencedContext "One") fenced = render (fencedContext "Two") fencedLess := by
    decide +kernel
  exact ⟨by decide +kernel, same, recover _ _ same, before, fence, page, encloses⟩

end MessageDocs.Page
