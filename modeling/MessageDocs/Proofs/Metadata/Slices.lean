import MessageDocs.Proofs.Metadata.Tokens

/-! # The leading tags of a comment by byte offsets

The tags can also be found by a scan over what is left of a comment. It looks for the byte offset of
the first closing bracket, and takes the tag and what follows it as slices of the text at this
offset. A slice exists only where a character begins or the text ends.

* `Text.cutAtByte?`: a text cut at a byte offset.
* `Metadata.scan?`: the scan, which fails at a slice that does not exist.
* `Metadata.scan?_eq`: it never fails, and finds the leading tags.
* `Metadata.tags_decompose`: the leading tags as the only decomposition of a comment.
-/

set_option autoImplicit false

namespace MessageDocs

namespace Text

/-! ## Slices -/

/-- A text cut at a byte offset; there is no cut inside a character or behind the end. -/
def cutAtByte? : Nat → Text → Option (Text × Text)
  | 0, t => some ([], t)
  | _ + 1, [] => none
  | n + 1, c :: t =>
    if c.utf8Size ≤ n + 1 then
      (cutAtByte? (n + 1 - c.utf8Size) t).map fun cut => (c :: cut.1, cut.2)
    else
      none

def sliceTo? (offset : Nat) (t : Text) : Option Text :=
  (cutAtByte? offset t).map Prod.fst

def sliceFrom? (offset : Nat) (t : Text) : Option Text :=
  (cutAtByte? offset t).map Prod.snd

/-- The byte offset of the first mark. -/
def offsetOf? (mark : Char) : Text → Option Nat
  | [] => none
  | c :: t => if c = mark then some 0 else (offsetOf? mark t).map (c.utf8Size + ·)

theorem cutAtByte?_append (a b : Text) : cutAtByte? (byteLength a) (a ++ b) = some (a, b) := by
  induction a with
  | nil => rw [byteLength_nil, cutAtByte?, List.nil_append]
  | cons c a ih =>
    obtain ⟨n, size⟩ := Nat.exists_eq_add_one.mpr (byteLength_pos (List.cons_ne_nil c a))
    have behind : n + 1 - c.utf8Size = byteLength a := by
      rw [← size, byteLength_cons, Nat.add_sub_cancel_left]
    have fits : c.utf8Size ≤ n + 1 := by
      rw [← size, byteLength_cons]
      exact Nat.le_add_right _ _
    rw [size, List.cons_append, cutAtByte?, if_pos fits, behind, ih, Option.map_some]

theorem append_of_cutAtByte? {n : Nat} {t a b : Text} (h : cutAtByte? n t = some (a, b)) :
    t = a ++ b := by
  induction t generalizing n a with
  | nil =>
    cases n with
    | zero =>
      cases h
      rfl
    | succ n => cases h
  | cons c t ih =>
    cases n with
    | zero =>
      cases h
      rfl
    | succ n =>
      rw [cutAtByte?] at h
      split at h
      · obtain ⟨⟨a', b'⟩, cut, same⟩ := Option.map_eq_some_iff.mp h
        rw [Prod.mk.injEq] at same
        obtain ⟨rfl, rfl⟩ := same
        rw [ih cut, List.cons_append]
      · cases h

theorem length_of_sliceFrom? {n : Nat} {t behind : Text} (h : sliceFrom? n t = some behind) :
    behind.length ≤ t.length := by
  obtain ⟨⟨a, b⟩, cut, rfl⟩ := Option.map_eq_some_iff.mp h
  rw [append_of_cutAtByte? cut, List.length_append]
  exact Nat.le_add_left _ _

theorem length_trimStart_le (t : Text) : (trimStart t).length ≤ t.length :=
  (List.dropWhile_suffix isSpace).length_le

theorem offsetOf?_append_cons {mark : Char} {a : Text} (h : mark ∉ a) (b : Text) :
    offsetOf? mark (a ++ mark :: b) = some (byteLength a) := by
  induction a with
  | nil => rw [List.nil_append, offsetOf?, if_pos rfl, byteLength_nil]
  | cons c a ih =>
    obtain ⟨other, rest⟩ := not_or.mp (mt List.mem_cons.mpr h)
    rw [List.cons_append, offsetOf?, if_neg (Ne.symm other), ih rest, byteLength_cons,
      Option.map_some]

theorem offsetOf?_eq_none_iff {mark : Char} {t : Text} : offsetOf? mark t = none ↔ mark ∉ t := by
  induction t with
  | nil => simp [offsetOf?]
  | cons c t ih =>
    by_cases same : c = mark
    · simp [offsetOf?, same]
    · rw [offsetOf?, if_neg same, Option.map_eq_none_iff, ih, List.mem_cons, not_or]
      exact ⟨fun h => ⟨Ne.symm same, h⟩, And.right⟩

end Text

namespace Metadata

open Text

/-! ## The scan -/

/-- The tags found so far and those in front of what is left, with the rest behind them. What is
left gets shorter with each tag. -/
def scan? (tags : List Text) : Text → Option (List Text × Text)
  | '[' :: inner =>
    match offsetOf? ']' inner with
    | none => some (tags, '[' :: inner)
    | some close =>
      match sliceTo? close inner, _ : sliceFrom? (close + 1) inner with
      | some tag, some behind => scan? (tags ++ [tag]) (trimStart behind)
      | _, _ => none
  | rest => some (tags, rest)
termination_by rest => rest.length
decreasing_by
  have := length_of_sliceFrom? ‹_›
  have := length_trimStart_le behind
  rw [List.length_cons]
  omega

/-- The bracket is one byte long, so there is a slice in front of it and one behind it. -/
theorem slices_of_offsetOf? {inner : Text} {close : Nat} (h : offsetOf? ']' inner = some close) :
    ∃ tag behind, sliceTo? close inner = some tag ∧ sliceFrom? (close + 1) inner = some behind ∧
      takeTag? ('[' :: inner) = some (tag, trimStart behind) := by
  have closed : ']' ∈ inner := by
    by_contra unclosed
    rw [offsetOf?_eq_none_iff.mpr unclosed] at h
    cases h
  obtain ⟨tag, behind, rfl, first⟩ := List.eq_append_cons_of_mem closed
  rw [offsetOf?_append_cons first, Option.some.injEq] at h
  have next : cutAtByte? (close + 1) (tag ++ ']' :: behind) = some (tag ++ [']'], behind) := by
    have cut := cutAtByte?_append (tag ++ [']']) behind
    rw [byteLength_append, h, List.append_assoc] at cut
    exact cut
  refine ⟨tag, behind, ?_, ?_, ?_⟩
  · rw [sliceTo?, ← h, cutAtByte?_append, Option.map_some]
  · rw [sliceFrom?, next, Option.map_some]
  · rw [takeTag?, cutAt_append_cons first, Option.map_some]

theorem splitTags_of_none {t : Text} (h : takeTag? t = none) : splitTags t = ([], t) := by
  cases t with
  | nil => rfl
  | cons c t => rw [splitTags, List.length_cons, takeTags, h]

/-- One round: the first tag, and then the tags of what is left. -/
theorem splitTags_of_some {t tag rest : Text} (h : takeTag? t = some (tag, rest)) :
    splitTags t = (tag :: (splitTags rest).1, (splitTags rest).2) := by
  obtain ⟨token, rfl, parts, start⟩ := exists_token_of_takeTag? h
  obtain ⟨tokens, cut, insides⟩ := exists_isCut_splitTags start
  rw [(isCut_cons_iff.mpr ⟨rest, parts, cut⟩).splitTags_eq, insides, List.map_cons]

/-- **The scan** takes every slice where a character begins, and comes to the leading tags. -/
theorem scan?_eq (tags : List Text) (t : Text) :
    scan? tags t = some (tags ++ (splitTags t).1, (splitTags t).2) := by
  fun_induction scan? tags t with
  | case1 tags inner unclosed =>
    have none : takeTag? ('[' :: inner) = none := by
      rw [takeTag?, cutAt_eq_none_iff.mpr (offsetOf?_eq_none_iff.mp unclosed), Option.map_none]
    rw [splitTags_of_none none, List.append_nil]
  | case2 tags inner close found tag behind from_eq to_eq ih =>
    obtain ⟨tag', behind', to_eq', from_eq', taken⟩ := slices_of_offsetOf? found
    rw [to_eq, Option.some.injEq] at to_eq'
    rw [from_eq, Option.some.injEq] at from_eq'
    rw [ih, splitTags_of_some taken, ← to_eq', ← from_eq', List.append_assoc, List.singleton_append]
  | case3 tags inner close found failed =>
    obtain ⟨tag, behind, to_eq, from_eq, -⟩ := slices_of_offsetOf? found
    exact absurd from_eq (failed tag behind to_eq)
  | case4 tags rest other =>
    have none : takeTag? rest = none := by
      unfold takeTag?
      split
      · next inner => exact absurd rfl (other inner)
      · rfl
    rw [splitTags_of_none none, List.append_nil]

/-! ## The decomposition -/

theorem takeTag?_eq_none_iff_not_isTagged {t : Text} : takeTag? t = none ↔ ¬IsTagged t := by
  rw [takeTag?_eq_none_iff, isTagged_iff]
  push Not
  rfl

theorem splitTags_eq_nil_iff {t : Text} : (splitTags t).1 = [] ↔ ¬IsTagged t := by
  rw [← takeTag?_eq_none_iff_not_isTagged]
  cases first : takeTag? t with
  | none => simp [splitTags_of_none first]
  | some cut => simp [splitTags_of_some first]

/-- A comment as tags, each with the white space after it, and a rest that begins with no white
space and with no bracket that is closed later. -/
structure Decomposes (comment : Text) (tokens : List Token) (rest : Text) : Prop where
  whole : comment = tokens.flatMap Token.text ++ rest
  start : ∀ c ∈ rest.head?, isSpace c = false
  untagged : ¬IsTagged rest

theorem decomposes_iff_isCut {t rest : Text} {tokens : List Token} :
    Decomposes t tokens rest ↔ IsCut t tokens rest := by
  have untagged : ¬IsTagged rest ↔
      ∀ (token : Token) (after : Text), rest ≠ token.text ++ after := by
    rw [← takeTag?_eq_none_iff_not_isTagged, takeTag?_eq_none_iff]
  exact ⟨fun h => ⟨h.whole, untagged.mp h.untagged, h.start⟩,
    fun h => ⟨h.whole, h.start, untagged.mpr h.maximal⟩⟩

/-- **The leading tags of a comment.** The scan takes its slices where characters begin and comes to
an end. It finds no tag exactly when the comment does not begin with a bracket that is closed later.
Otherwise it decomposes the comment, in the one way there is. -/
theorem tags_decompose (comment : Text) :
    scan? [] comment = some (splitTags comment) ∧
    ((splitTags comment).1 = [] ↔ ¬IsTagged comment) ∧
    (IsTagged comment → ∃ tokens rest,
      splitTags comment = (tokens.map Token.inside, rest) ∧ Decomposes comment tokens rest ∧
      ∀ tokens' rest', Decomposes comment tokens' rest' → tokens' = tokens ∧ rest' = rest) := by
  refine ⟨scan?_eq [] comment, splitTags_eq_nil_iff, ?_⟩
  intro tagged
  have start : ∀ c ∈ comment.head?, isSpace c = false := by
    obtain ⟨inner, rfl, -⟩ := tagged
    rintro c ⟨⟩
    decide
  obtain ⟨tokens, cut, insides⟩ := exists_isCut_splitTags start
  refine ⟨tokens, _, Prod.ext insides rfl, decomposes_iff_isCut.mpr cut, ?_⟩
  intro tokens' rest' other
  exact (decomposes_iff_isCut.mp other).unique cut

/-- Tags with characters of several bytes in them, between them and behind them. -/
theorem wideTags_decompose :
    let comment : Text := "[µm][@range 0,1]\u3000[ü"
    let tags : List Text := ["µm", "@range 0,1"]
    let rest : Text := "[ü"
    IsTagged comment ∧ scan? [] comment = some (tags, rest) ∧
      ∃ tokens, tags = tokens.map Token.inside ∧ Decomposes comment tokens rest ∧
        ∀ tokens' rest', Decomposes comment tokens' rest' → tokens' = tokens ∧ rest' = rest := by
  intro comment tags rest
  have tagged : IsTagged comment := ⟨comment.tail, by decide +kernel, by decide +kernel⟩
  have found : splitTags comment = (tags, rest) := by decide +kernel
  obtain ⟨scanned, -, decomposed⟩ := tags_decompose comment
  obtain ⟨tokens, rest', split, parts, only⟩ := decomposed tagged
  rw [found] at scanned split
  obtain ⟨insides, rfl⟩ := Prod.mk.inj split
  exact ⟨tagged, scanned, tokens, insides, parts, only⟩

end Metadata

end MessageDocs
