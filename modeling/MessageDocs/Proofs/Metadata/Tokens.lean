import MessageDocs.Message.Schema
import MessageDocs.Metadata
import MessageDocs.Proofs.Text.Words

/-! # The leading tokens of a comment

A token is a closed bracket and the white space after it. The tokens in front of a text are taken
off one by one, and there is one way to do it.

* `Metadata.IsCut`: a text is the tokens in front of it and a rest; `Metadata.IsCut.unique`.
* `Metadata.IsCut.splitTags_eq`: splitting a text gives the insides of these tokens.
-/

set_option autoImplicit false

namespace MessageDocs.Metadata

open Text

/-- The inside of a leading tag and the white space after the tag. -/
@[ext]
structure Token where
  inside : Text
  space : Text
  closed : ']' ∉ inside
  blank : ∀ c ∈ space, isSpace c = true

def Token.text (token : Token) : Text :=
  Field.tag token.inside ++ token.space

/-- A text is the tokens in front of it and a rest, which begins with no token and no white
space. -/
structure IsCut (t : Text) (tokens : List Token) (rest : Text) : Prop where
  whole : t = tokens.flatMap Token.text ++ rest
  maximal : ∀ (token : Token) (after : Text), rest ≠ token.text ++ after
  start : ∀ c ∈ rest.head?, isSpace c = false

/-- Whether a text begins with a bracket that is closed later. -/
def IsTagged (t : Text) : Prop :=
  ∃ inner, t = '[' :: inner ∧ ']' ∈ inner

/-! ## One token -/

theorem head?_text (token : Token) (after : Text) : (token.text ++ after).head? = some '[' := by
  simp [Token.text, Field.tag]

theorem takeTag?_text (token : Token) (after : Text) :
    takeTag? (token.text ++ after) = some (token.inside, trimStart after) := by
  have form : token.text ++ after =
      '[' :: (token.inside ++ ']' :: (token.space ++ after)) := by
    simp [Token.text, Field.tag]
  rw [form, takeTag?, cutAt_append_cons token.closed, Option.map_some, trimStart_append token.blank]

theorem exists_token_of_takeTag? {t inside rest : Text} (h : takeTag? t = some (inside, rest)) :
    ∃ token : Token, token.inside = inside ∧ t = token.text ++ rest ∧
      ∀ c ∈ rest.head?, isSpace c = false := by
  unfold takeTag? at h
  split at h
  · next t =>
    obtain ⟨⟨a, b⟩, cut, same⟩ := Option.map_eq_some_iff.mp h
    rw [Prod.mk.injEq] at same
    obtain ⟨rfl, rfl⟩ := same
    obtain ⟨first, rfl⟩ := cutAt_eq_some_iff.mp cut
    obtain ⟨space, parts, blank⟩ := exists_trimStart b
    refine ⟨⟨a, space, first, blank⟩, rfl, ?_, trimStart_start b⟩
    dsimp only [Token.text]
    rw [List.append_assoc, ← parts]
    simp [Field.tag]
  · cases h

theorem takeTag?_eq_none_iff {t : Text} :
    takeTag? t = none ↔ ∀ (token : Token) (after : Text), t ≠ token.text ++ after := by
  constructor
  · rintro none token after rfl
    rw [takeTag?_text] at none
    cases none
  · intro h
    by_contra some_tag
    obtain ⟨⟨inside, rest⟩, taken⟩ := Option.ne_none_iff_exists'.mp some_tag
    obtain ⟨token, -, parts, -⟩ := exists_token_of_takeTag? taken
    exact h token rest parts

theorem isTagged_iff {t : Text} :
    IsTagged t ↔ ∃ (token : Token) (after : Text), t = token.text ++ after := by
  constructor
  · rintro ⟨inner, rfl, close⟩
    obtain ⟨inside, after, rfl, first⟩ := List.eq_append_cons_of_mem close
    exact ⟨⟨inside, [], first, by simp⟩, after, by simp [Token.text, Field.tag]⟩
  · rintro ⟨token, after, rfl⟩
    exact ⟨token.inside ++ ']' :: (token.space ++ after), by simp [Token.text, Field.tag], by simp⟩

/-- A first token ends at its bracket, and its white space where the white space ends. -/
theorem text_append_inj {token token' : Token} {a a' : Text}
    (ha : ∀ c ∈ a.head?, isSpace c = false) (ha' : ∀ c ∈ a'.head?, isSpace c = false)
    (same : token.text ++ a = token'.text ++ a') : token = token' ∧ a = a' := by
  have taken : some (token.inside, trimStart a) = some (token'.inside, trimStart a') := by
    rw [← takeTag?_text, ← takeTag?_text, same]
  rw [trimStart_eq_self ha, trimStart_eq_self ha', Option.some.injEq, Prod.mk.injEq] at taken
  obtain ⟨inside, rfl⟩ := taken
  have text : token.text = token'.text := List.append_cancel_right same
  rw [Token.text, Token.text, inside] at text
  exact ⟨Token.ext inside (List.append_cancel_left text), rfl⟩

/-! ## All tokens -/

theorem isCut_nil_iff {t rest : Text} :
    IsCut t [] rest ↔ t = rest ∧ takeTag? rest = none ∧ ∀ c ∈ rest.head?, isSpace c = false := by
  rw [takeTag?_eq_none_iff]
  exact ⟨fun h => ⟨h.whole, h.maximal, h.start⟩, fun h => ⟨h.1, h.2.1, h.2.2⟩⟩

theorem isCut_cons_iff {t rest : Text} {token : Token} {tokens : List Token} :
    IsCut t (token :: tokens) rest ↔
      ∃ after, t = token.text ++ after ∧ IsCut after tokens rest := by
  constructor
  · intro h
    refine ⟨tokens.flatMap Token.text ++ rest, ?_, rfl, h.maximal, h.start⟩
    rw [h.whole, List.flatMap_cons, List.append_assoc]
  · rintro ⟨after, rfl, h⟩
    refine ⟨?_, h.maximal, h.start⟩
    rw [h.whole, List.flatMap_cons, List.append_assoc]

theorem IsCut.cons_start {t rest : Text} {tokens : List Token} (h : IsCut t tokens rest) :
    ∀ c ∈ t.head?, isSpace c = false := by
  rw [h.whole]
  cases tokens with
  | nil => exact h.start
  | cons token tokens =>
    rw [List.flatMap_cons, List.append_assoc, head?_text]
    rintro c ⟨⟩
    decide

theorem IsCut.isTagged_iff {t rest : Text} {tokens : List Token} (h : IsCut t tokens rest) :
    IsTagged t ↔ tokens ≠ [] := by
  rw [Metadata.isTagged_iff]
  cases tokens with
  | nil =>
    obtain ⟨rfl, -, -⟩ := isCut_nil_iff.mp h
    refine iff_of_false ?_ (by simp)
    rintro ⟨token, after, parts⟩
    exact h.maximal token after parts
  | cons token tokens =>
    obtain ⟨after, parts, -⟩ := isCut_cons_iff.mp h
    exact iff_of_true ⟨token, after, parts⟩ (by simp)

theorem IsCut.unique {t rest rest' : Text} {tokens tokens' : List Token}
    (h : IsCut t tokens rest) (h' : IsCut t tokens' rest') : tokens = tokens' ∧ rest = rest' := by
  induction tokens generalizing t tokens' with
  | nil =>
    have none : tokens' = [] := by
      by_contra some_tokens
      exact h.isTagged_iff.mp (h'.isTagged_iff.mpr some_tokens) rfl
    subst none
    exact ⟨rfl, (isCut_nil_iff.mp h).1.symm.trans (isCut_nil_iff.mp h').1⟩
  | cons token tokens ih =>
    cases tokens' with
    | nil => exact absurd rfl (h'.isTagged_iff.mp (h.isTagged_iff.mpr (by simp)))
    | cons token' tokens' =>
      obtain ⟨after, rfl, behind⟩ := isCut_cons_iff.mp h
      obtain ⟨after', parts, behind'⟩ := isCut_cons_iff.mp h'
      obtain ⟨rfl, rfl⟩ := text_append_inj behind.cons_start behind'.cons_start parts
      obtain ⟨rfl, rfl⟩ := ih behind behind'
      exact ⟨rfl, rfl⟩

/-- Taking tags off cuts a text, when enough may be taken. -/
theorem exists_isCut_takeTags {n : Nat} {t : Text} (enough : t.length ≤ n)
    (start : ∀ c ∈ t.head?, isSpace c = false) :
    ∃ tokens, IsCut t tokens (takeTags n t).2 ∧ (takeTags n t).1 = tokens.map Token.inside := by
  induction n generalizing t with
  | zero =>
    rw [List.length_eq_zero_iff.mp (Nat.le_zero.mp enough)]
    exact ⟨[], isCut_nil_iff.mpr ⟨rfl, rfl, by simp [takeTags]⟩, rfl⟩
  | succ n ih =>
    cases first : takeTag? t with
    | none =>
      have stop : takeTags (n + 1) t = ([], t) := by rw [takeTags, first]
      rw [stop]
      exact ⟨[], isCut_nil_iff.mpr ⟨rfl, first, start⟩, rfl⟩
    | some cut =>
      obtain ⟨inside, rest⟩ := cut
      obtain ⟨token, rfl, rfl, restStart⟩ := exists_token_of_takeTag? first
      have shorter : rest.length ≤ n := by
        have filled : 0 < token.text.length := by simp [Token.text, Field.tag]
        rw [List.length_append] at enough
        omega
      obtain ⟨tokens, cut, insides⟩ := ih shorter restStart
      rw [takeTags, first]
      dsimp only
      refine ⟨token :: tokens, isCut_cons_iff.mpr ⟨rest, rfl, cut⟩, ?_⟩
      rw [insides, List.map_cons]

theorem exists_isCut_splitTags {t : Text} (start : ∀ c ∈ t.head?, isSpace c = false) :
    ∃ tokens, IsCut t tokens (splitTags t).2 ∧ (splitTags t).1 = tokens.map Token.inside :=
  exists_isCut_takeTags (Nat.le_refl t.length) start

/-- **The tags of a text** are the insides of the tokens in front of it. -/
theorem IsCut.splitTags_eq {t rest : Text} {tokens : List Token} (h : IsCut t tokens rest) :
    splitTags t = (tokens.map Token.inside, rest) := by
  obtain ⟨tokens', cut, insides⟩ := exists_isCut_splitTags h.cons_start
  obtain ⟨rfl, rest_eq⟩ := cut.unique h
  exact Prod.ext insides rest_eq

end MessageDocs.Metadata
