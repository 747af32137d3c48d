import MessageDocs.Proofs.Metadata.Tokens

/-! # Metadata is read back as it is written

A field writes its metadata as tags in brackets and a description. Reading takes the tags off one by
one, so what is read back depends on where each tag ends and on what a tag says.

* `Metadata.splitTags_join`: the tags of a written comment are the ones that were written.
* `Metadata.IsPlain` collects what every metadata that was read satisfies;
  `Metadata.isPlain_of_read`.
* `Metadata.read_comment?`: plain metadata is read from the comment it is written as.
-/

set_option autoImplicit false

namespace MessageDocs

/-- What the comment of a field says. -/
def Field.metadata (f : Field) : Metadata :=
  ⟨f.description, f.unit, f.enumTags, f.minimum, f.maximum, f.invalid⟩

namespace Metadata

open Text

/-! ## Plain metadata -/

/-- A text that can stand in a tag and in a comment. -/
structure IsInside (t : Text) : Prop extends Collapsed t where
  noComment : '#' ∉ t
  noClose : ']' ∉ t

/-- A text that can be one of the two bounds of a range. -/
structure IsBound (t : Text) : Prop extends IsInside t where
  ne_nil : t ≠ []
  noComma : ',' ∉ t

/-- Metadata whose parts are read back from a comment. -/
structure IsPlain (m : Metadata) : Prop where
  description : Collapsed m.description ∧ '#' ∉ m.description
  noTag : takeTag? m.description = none
  unit : ∀ u ∈ m.unit, IsInside u ∧ u.head? ≠ some '@'
  enumTags : ∀ name ∈ m.enumTags, IsWord name ∧ '#' ∉ name ∧ ']' ∉ name
  range : (m.minimum = none ∧ m.maximum = none) ∨
    ∃ lo hi, (m.minimum = some lo ∧ m.maximum = some hi) ∧ IsBound lo ∧ IsBound hi
  invalid : ∀ v ∈ m.invalid, IsInside v

theorem isInside_trim {t whole : Text} (h : IsSpaced t) (inside : t <:+: whole)
    (noComment : '#' ∉ whole) (noClose : ']' ∉ t) : IsInside (trim t) :=
  ⟨h.collapsed_trim, fun m => noComment (inside.subset ((trim_isInfix t).subset m)),
    fun m => noClose ((trim_isInfix t).subset m)⟩

/-! ## Written comments -/

/-- What follows the first of some texts, without its white space, is the rest of them. -/
theorem join_cons_eq {part : Text} {parts : List Text} (h : Collapsed (join " " parts)) :
    ∃ rest, join " " (part :: parts) = part ++ rest ∧ trimStart rest = join " " parts := by
  cases parts with
  | nil => exact ⟨[], by simp [join], rfl⟩
  | cons next parts =>
    refine ⟨' ' :: join " " (next :: parts), by simp [join_cons_cons], ?_⟩
    have := trimStart_append (a := [' ']) (by simp [isSpace_blank]) (join " " (next :: parts))
    exact this.trans (trimStart_eq_self h.start)

/-- The texts of a comment: tags, and a description unless it is empty. -/
def parts (insides : List Text) (description : Text) : List Text :=
  insides.map Field.tag ++ if description = [] then [] else [description]

theorem collapsed_tag {inside : Text} (h : IsSpaced inside) :
    Collapsed (Field.tag inside) ∧ Field.tag inside ≠ [] :=
  ⟨h.enclose (by decide) (by decide), by simp [Field.tag]⟩

theorem collapsed_of_mem_parts {insides : List Text} {description : Text}
    (spaced : ∀ i ∈ insides, IsSpaced i) (h : Collapsed description) :
    ∀ part ∈ parts insides description, Collapsed part ∧ part ≠ [] := by
  intro part hp
  rcases List.mem_append.mp hp with hp | hp
  · obtain ⟨i, hi, rfl⟩ := List.mem_map.mp hp
    exact collapsed_tag (spaced i hi)
  · split at hp
    · cases hp
    · next ne =>
      rw [List.mem_singleton.mp hp]
      exact ⟨h, ne⟩

theorem exists_isCut_join {insides : List Text} {description : Text}
    (spaced : ∀ i ∈ insides, IsSpaced i) (closed : ∀ i ∈ insides, ']' ∉ i)
    (h : Collapsed description) (noTag : takeTag? description = none) :
    ∃ tokens, IsCut (join " " (parts insides description)) tokens description ∧
      insides = tokens.map Token.inside := by
  induction insides with
  | nil =>
    have whole : join " " (parts [] description) = description := by
      unfold parts
      split <;> simp_all [join]
    exact ⟨[], isCut_nil_iff.mpr ⟨whole, noTag, h.start⟩, rfl⟩
  | cons i insides ih =>
    obtain ⟨-, rest⟩ := List.forall_mem_cons.mp spaced
    obtain ⟨hereClosed, restClosed⟩ := List.forall_mem_cons.mp closed
    have others : Collapsed (join " " (parts insides description)) :=
      collapsed_join (collapsed_of_mem_parts rest h)
    obtain ⟨after, form, trimmed⟩ := @join_cons_eq (Field.tag i) _ others
    obtain ⟨space, after_eq, blank⟩ := exists_trimStart after
    obtain ⟨tokens, cut, insides_eq⟩ := ih rest restClosed
    refine ⟨⟨i, space, hereClosed, blank⟩ :: tokens, isCut_cons_iff.mpr ⟨_, ?_, cut⟩, ?_⟩
    · rw [← trimmed, Token.text, List.append_assoc, ← after_eq]
      exact form
    · rw [List.map_cons, ← insides_eq]

/-- **The tags of a written comment** are the ones that were written, and its rest is the
description. -/
theorem splitTags_join {insides : List Text} {description : Text}
    (spaced : ∀ i ∈ insides, IsSpaced i) (closed : ∀ i ∈ insides, ']' ∉ i)
    (h : Collapsed description) (noTag : takeTag? description = none) :
    splitTags (join " " (parts insides description)) = (insides, description) := by
  obtain ⟨tokens, cut, rfl⟩ := exists_isCut_join spaced closed h noTag
  exact cut.splitTags_eq

/-- What a comment is cut into: parts of it, each spaced like it. -/
theorem IsCut.collapsed {t rest : Text} {tokens : List Token} (cut : IsCut t tokens rest)
    (h : Collapsed t) :
    (∀ token ∈ tokens, IsSpaced token.inside ∧ token.inside <:+: t) ∧
      Collapsed rest ∧ rest <:+ t := by
  have suffix : rest <:+ t := ⟨_, cut.whole.symm⟩
  refine ⟨fun token ht => ?_, ?_, suffix⟩
  · have inText : token.inside <:+: token.text := ⟨['['], ']' :: token.space, by
      simp [Token.text, Field.tag]⟩
    have inTokens : token.text <:+: tokens.flatMap Token.text := by
      rw [List.flatMap_def]
      exact List.infix_of_mem_flatten (List.mem_map_of_mem ht)
    have inside : token.inside <:+: t := by
      rw [cut.whole]
      exact (inText.trans inTokens).trans (List.prefix_append _ _).isInfix
    exact ⟨h.toIsSpaced.part inside, inside⟩
  · have := h.trimStart suffix
    rwa [trimStart_eq_self cut.start] at this

/-! ## What tags say -/

theorem addTags_append {m m' : Metadata} {tags : List Text} (h : addTags m tags = .ok m')
    (more : List Text) : addTags m (tags ++ more) = addTags m' more := by
  induction tags generalizing m with
  | nil =>
    cases h
    rfl
  | cons tag tags ih =>
    rw [addTags] at h
    rw [List.cons_append, addTags]
    split at h
    · next added => exact ih h
    · cases h

theorem addTag_unit {m : Metadata} {tag : Text} (h : tag.head? ≠ some '@') :
    addTag m tag = .ok { m with unit := some tag } := by
  rw [addTag, if_pos h]

theorem addTag_enum (m : Metadata) (rest : Text) :
    addTag m ("@enum" ++ rest) = .ok { m with enumTags := (words ("@enum" ++ rest)).tail } := by
  rfl

theorem addTag_range (m : Metadata) (rest : Text) :
    addTag m ("@range" ++ rest) = match bounds? rest with
      | some (lo, hi) => .ok { m with minimum := some lo, maximum := some hi }
      | none => .error (.malformedRange ("@range" ++ rest)) := by
  rfl

theorem addTag_invalid (m : Metadata) (rest : Text) :
    addTag m ("@invalid" ++ rest) = .ok { m with invalid := some (trim rest) } := by
  rfl

/-- Two trimmed bounds that are not empty, with one comma between them. -/
def AreBounds (t lo hi : Text) : Prop :=
  ∃ a b, (t = a ++ ',' :: b ∧ ',' ∉ a ∧ ',' ∉ b) ∧ (lo = trim a ∧ lo ≠ []) ∧ hi = trim b ∧ hi ≠ []

theorem bounds?_eq_some_iff {t lo hi : Text} : bounds? t = some (lo, hi) ↔ AreBounds t lo hi := by
  constructor
  · intro h
    unfold bounds? at h
    split at h
    · next l r pieces =>
      split at h
      · next filled =>
        cases h
        obtain ⟨a, others, two, rfl, rest⟩ := List.map_eq_cons_iff.mp pieces
        obtain ⟨b, none, rfl, rfl, last⟩ := List.map_eq_cons_iff.mp rest
        rw [List.map_eq_nil_iff.mp last] at two
        exact ⟨a, b, split_eq_pair_iff.mp two, ⟨rfl, filled.1⟩, rfl, filled.2⟩
      · cases h
    · cases h
  · rintro ⟨a, b, parts, ⟨rfl, lo_ne⟩, rfl, hi_ne⟩
    rw [bounds?, split_eq_pair_iff.mpr parts, List.map_cons, List.map_cons]
    exact if_pos ⟨lo_ne, hi_ne⟩

theorem bounds?_eq {lo hi : Text} (hlo : IsBound lo) (hhi : IsBound hi) :
    bounds? (' ' :: (lo ++ ',' :: hi)) = some (lo, hi) := by
  have left : ',' ∉ ' ' :: lo := by simp [hlo.noComma]
  refine bounds?_eq_some_iff.mpr ⟨' ' :: lo, hi, ⟨rfl, left, hhi.noComma⟩, ⟨?_, hlo.ne_nil⟩, ?_,
    hhi.ne_nil⟩
  · rw [trim_cons_blank hlo.toIsTrimmed]
  · rw [trim_eq_self hhi.toIsTrimmed]

theorem bounds?_spec {t whole lo hi : Text} (h : IsInside whole) (inside : t <:+: whole)
    (read : bounds? t = some (lo, hi)) : IsBound lo ∧ IsBound hi := by
  have bound : ∀ piece, piece <:+: t → ',' ∉ piece → trim piece ≠ [] → IsBound (trim piece) := by
    intro piece part noComma ne
    have stands : piece <:+: whole := part.trans inside
    have closed : ']' ∉ piece := fun m => h.noClose (stands.subset m)
    exact ⟨isInside_trim (h.toIsSpaced.part stands) stands h.noComment closed, ne,
      fun m => noComma ((trim_isInfix piece).subset m)⟩
  obtain ⟨a, b, ⟨rfl, left, right⟩, ⟨rfl, lo_ne⟩, rfl, hi_ne⟩ := bounds?_eq_some_iff.mp read
  have first : a <:+: a ++ ',' :: b := (List.prefix_append a _).isInfix
  have second : b <:+: a ++ ',' :: b :=
    ((List.suffix_cons ',' b).trans (List.suffix_append a _)).isInfix
  exact ⟨bound a first left lo_ne, bound b second right hi_ne⟩

/-! ## Written metadata -/

def enumInside (m : Metadata) : List Text :=
  if m.enumTags = [] then [] else [join " " ("@enum" :: m.enumTags)]

def rangeInside (m : Metadata) : List Text :=
  match m.minimum, m.maximum with
  | some lo, some hi => ["@range" ++ (' ' :: (lo ++ ',' :: hi))]
  | _, _ => []

/-- What the tags of a comment say, one after the other. -/
def insides (m : Metadata) : List Text :=
  m.unit.toList ++ enumInside m ++ rangeInside m ++
    m.invalid.toList.map fun value => "@invalid" ++ (' ' :: value)

theorem isWord_of_mem_enumWords {m : Metadata} (h : m.IsPlain) {w : Text}
    (hw : w ∈ ("@enum" : Text) :: m.enumTags) : IsWord w ∧ '#' ∉ w ∧ ']' ∉ w := by
  rcases List.mem_cons.mp hw with rfl | hw
  · exact ⟨isWord_of_all (by decide) (by decide), by decide, by decide⟩
  · exact h.enumTags w hw

theorem collapsed_enum {m : Metadata} (h : m.IsPlain) :
    Collapsed (join " " (("@enum" : Text) :: m.enumTags)) := by
  apply collapsed_join
  intro w hw
  have word := (isWord_of_mem_enumWords h hw).1
  exact ⟨word.collapsed, word.ne_nil⟩

theorem collapsed_range {lo hi : Text} (hlo : IsBound lo) (hhi : IsBound hi) :
    Collapsed ("@range" ++ (' ' :: (lo ++ ',' :: hi))) := by
  have bounds : Collapsed (lo ++ ',' :: hi) :=
    hlo.toCollapsed.append_mark hhi.toCollapsed (by decide)
  have key : IsWord "@range" := isWord_of_all (by decide) (by decide)
  exact key.collapsed.append_blank bounds key.ne_nil (by simp)

theorem insides_spaced {m : Metadata} (h : m.IsPlain) :
    ∀ i ∈ m.insides, IsSpaced i ∧ '#' ∉ i ∧ ']' ∉ i := by
  intro i hi
  rw [insides, List.mem_append, List.mem_append, List.mem_append] at hi
  rcases hi with ((hi | hi) | hi) | hi
  · have plain := (h.unit i (by simpa using hi)).1
    exact ⟨plain.toIsSpaced, plain.noComment, plain.noClose⟩
  · unfold enumInside at hi
    split at hi
    · cases hi
    · rw [List.mem_singleton.mp hi]
      have words := fun w hw => @isWord_of_mem_enumWords m h w hw
      refine ⟨(collapsed_enum h).toIsSpaced, fun mark => ?_, fun mark => ?_⟩
      · rcases mem_join mark with mark | ⟨w, hw, mark⟩
        · simp at mark
        · exact (words w hw).2.1 mark
      · rcases mem_join mark with mark | ⟨w, hw, mark⟩
        · simp at mark
        · exact (words w hw).2.2 mark
  · unfold rangeInside at hi
    rcases h.range with ⟨hlo, -⟩ | ⟨lo, hi', ⟨hlo, hhi⟩, lower, upper⟩
    · rw [hlo] at hi
      cases hi
    · rw [hlo, hhi] at hi
      rw [List.mem_singleton.mp hi]
      exact ⟨(collapsed_range lower upper).toIsSpaced, by simp [lower.noComment, upper.noComment],
        by simp [lower.noClose, upper.noClose]⟩
  · obtain ⟨v, hv, rfl⟩ := List.mem_map.mp hi
    have plain := h.invalid v (by simpa using hv)
    have key : IsWord "@invalid" := isWord_of_all (by decide) (by decide)
    have value : IsSpaced (' ' :: v) := plain.toIsSpaced.cons_blank plain.start
    exact ⟨key.collapsed.toIsSpaced.append_after key.collapsed.stop value,
      by simp [plain.noComment], by simp [plain.noClose]⟩

theorem addTags_unit {m : Metadata} (h : m.IsPlain) :
    addTags { description := m.description } m.unit.toList =
      .ok { description := m.description, unit := m.unit } := by
  cases hu : m.unit with
  | none => rfl
  | some u =>
    obtain ⟨plain, noMark⟩ := h.unit u hu
    rw [Option.toList_some, addTags, trim_eq_self plain.toIsTrimmed, addTag_unit noMark]
    rfl

theorem addTags_enum {m : Metadata} (h : m.IsPlain) :
    addTags { description := m.description, unit := m.unit } m.enumInside =
      .ok { description := m.description, unit := m.unit, enumTags := m.enumTags } := by
  unfold enumInside
  by_cases empty : m.enumTags = []
  · rw [if_pos empty, empty]
    rfl
  · have names := fun w hw => (@isWord_of_mem_enumWords m h w hw).1
    obtain ⟨tag, tags, some_tags⟩ := List.exists_cons_of_ne_nil empty
    have form : join " " (("@enum" : Text) :: m.enumTags) =
        "@enum" ++ (' ' :: join " " m.enumTags) := by
      rw [some_tags, join_cons_cons]
      rfl
    rw [if_neg empty, addTags, trim_eq_self (collapsed_enum h).toIsTrimmed, form, addTag_enum,
      ← form, words_join names]
    rfl

theorem addTags_range {m : Metadata} (h : m.IsPlain) :
    addTags { description := m.description, unit := m.unit, enumTags := m.enumTags }
      m.rangeInside = .ok { m with invalid := none } := by
  unfold rangeInside
  rcases h.range with ⟨hlo, hhi⟩ | ⟨lo, hi, ⟨hlo, hhi⟩, lower, upper⟩
  · rw [hlo, hhi]
    rfl
  · have whole := collapsed_range lower upper
    rw [hlo, hhi, addTags, trim_eq_self whole.toIsTrimmed, addTag_range, bounds?_eq lower upper]
    rfl

theorem addTags_invalid {m : Metadata} (h : m.IsPlain) :
    addTags { m with invalid := none }
      (m.invalid.toList.map fun value => "@invalid" ++ (' ' :: value)) = .ok m := by
  cases hv : m.invalid with
  | none =>
    have same : { m with invalid := none } = m := by rw [← hv]
    rw [same]
    rfl
  | some v =>
    have plain := h.invalid v hv
    have key : IsWord "@invalid" := isWord_of_all (by decide) (by decide)
    -- the blank after the key is gone when nothing follows it
    have said : ∃ rest, trim ("@invalid" ++ (' ' :: v)) = "@invalid" ++ rest ∧ trim rest = v := by
      by_cases empty : v = []
      · exact ⟨[], by rw [empty]; decide, by rw [empty]; rfl⟩
      · have whole := key.collapsed.append_blank plain.toCollapsed key.ne_nil empty
        exact ⟨' ' :: v, trim_eq_self whole.toIsTrimmed, trim_cons_blank plain.toIsTrimmed⟩
    obtain ⟨rest, tag_eq, rest_eq⟩ := said
    rw [Option.toList_some, List.map_singleton, addTags, tag_eq, addTag_invalid, rest_eq, ← hv]
    rfl

/-- The written tags say what the metadata has, one part after the other. -/
theorem addTags_insides {m : Metadata} (h : m.IsPlain) :
    addTags { description := m.description } m.insides = .ok m := by
  have upToEnum := (addTags_append (addTags_unit h) m.enumInside).trans (addTags_enum h)
  have upToRange := (addTags_append upToEnum m.rangeInside).trans (addTags_range h)
  exact (addTags_append upToRange _).trans (addTags_invalid h)

theorem commentParts_eq (f : Field) :
    f.commentParts = parts f.metadata.insides f.metadata.description := by
  have unit : f.unitTag = f.metadata.unit.toList.map Field.tag := rfl
  have enum : f.enumTag = f.metadata.enumInside.map Field.tag := by
    unfold Field.enumTag enumInside
    by_cases empty : f.enumTags = []
    · rw [if_pos empty, if_pos (show f.metadata.enumTags = [] from empty)]
      rfl
    · rw [if_neg empty, if_neg (show ¬f.metadata.enumTags = [] from empty)]
      rfl
  have range : f.rangeTag = f.metadata.rangeInside.map Field.tag := by
    unfold Field.rangeTag rangeInside
    show _ = (match f.minimum, f.maximum with
      | some lo, some hi => _
      | _, _ => []).map Field.tag
    cases f.minimum with
    | none => rfl
    | some lo =>
      cases f.maximum with
      | none => rfl
      | some hi => simp
  have invalid : f.invalidTag =
      (f.metadata.invalid.toList.map fun value => "@invalid" ++ (' ' :: value)).map Field.tag := by
    rw [List.map_map]
    rfl
  rw [Field.commentParts, unit, enum, range, invalid, parts, insides, List.map_append,
    List.map_append, List.map_append]
  rfl

/-- **Plain metadata is read from the comment it is written as.** -/
theorem read_comment? {f : Field} (h : f.metadata.IsPlain) :
    read f.comment? = .ok f.metadata := by
  have spaced := fun i hi => (insides_spaced h i hi).1
  have closed := fun i hi => (insides_spaced h i hi).2.2
  have each := collapsed_of_mem_parts spaced h.description.1
  have whole := collapsed_join each
  have text : f.comment?.getD [] = join " " (parts f.metadata.insides f.metadata.description) := by
    rw [Field.comment?, commentParts_eq]
    split
    · next nothing =>
      rw [nothing]
      rfl
    · rfl
  rw [read, text, trim_eq_self whole.toIsTrimmed,
    splitTags_join spaced closed h.description.1 h.noTag]
  dsimp only
  rw [trim_eq_self h.description.1.toIsTrimmed]
  exact addTags_insides h

/-- The comment that a field is written with stands for itself. -/
theorem comment?_collapsed {f : Field} (h : f.metadata.IsPlain) :
    ∀ c ∈ f.comment?, (Collapsed c ∧ c ≠ []) ∧ '#' ∉ c := by
  intro c hc
  rw [Field.comment?, commentParts_eq] at hc
  split at hc
  · cases hc
  · next some_parts =>
    cases hc
    have each := collapsed_of_mem_parts (fun i hi => (insides_spaced h i hi).1) h.description.1
    refine ⟨⟨collapsed_join each, join_ne_nil (fun p hp => (each p hp).2) some_parts⟩, ?_⟩
    intro mark
    rcases mem_join mark with mark | ⟨part, hp, mark⟩
    · simp at mark
    · rcases List.mem_append.mp hp with hp | hp
      · obtain ⟨i, hi, rfl⟩ := List.mem_map.mp hp
        exact (insides_spaced h i hi).2.1 (by simpa [Field.tag] using mark)
      · split at hp
        · cases hp
        · rw [List.mem_singleton.mp hp] at mark
          exact h.description.2 mark

/-! ## Metadata that was read -/

theorem isPlain_of_addTag {m m' : Metadata} {tag : Text} (h : m.IsPlain) (inside : IsInside tag)
    (added : addTag m tag = .ok m') : m'.IsPlain := by
  unfold addTag at added
  split at added
  · next noMark =>
    cases added
    refine { h with unit := ?_ }
    rintro u ⟨⟩
    exact ⟨inside, noMark⟩
  · split at added
    · cases added
      refine { h with enumTags := ?_ }
      intro name hn
      have word : name ∈ words tag := List.mem_of_mem_tail hn
      have part := infix_of_mem_words word
      exact ⟨isWord_of_mem_words word, fun m => inside.noComment (part.subset m),
        fun m => inside.noClose (part.subset m)⟩
    · split at added
      · next bounds after =>
        split at added
        · next lo hi read =>
          cases added
          have tail : bounds <:+: tag := by
            rw [after?_eq_some_iff.mp after]
            exact (List.suffix_append _ _).isInfix
          exact { h with range := Or.inr ⟨lo, hi, ⟨rfl, rfl⟩, bounds?_spec inside tail read⟩ }
        · cases added
      · split at added
        · next value after =>
          cases added
          have tail : value <:+: tag := by
            rw [after?_eq_some_iff.mp after]
            exact (List.suffix_append _ _).isInfix
          refine { h with invalid := ?_ }
          rintro v ⟨⟩
          exact isInside_trim (inside.toIsSpaced.part tail) tail inside.noComment
            fun m => inside.noClose (tail.subset m)
        · cases added

theorem isPlain_of_addTags {m m' : Metadata} {tags : List Text} (h : m.IsPlain)
    (insides : ∀ tag ∈ tags, IsInside (trim tag)) (added : addTags m tags = .ok m') :
    m'.IsPlain := by
  induction tags generalizing m with
  | nil =>
    cases added
    exact h
  | cons tag tags ih =>
    obtain ⟨here, rest⟩ := List.forall_mem_cons.mp insides
    rw [addTags] at added
    split at added
    · next first => exact ih (isPlain_of_addTag h here first) rest added
    · cases added

/-- What is read from a comment with one blank between its words is plain. -/
theorem isPlain_of_read {comment : Option Text} {m : Metadata}
    (h : ∀ c ∈ comment, Collapsed c ∧ '#' ∉ c) (said : read comment = .ok m) : m.IsPlain := by
  have text : Collapsed (comment.getD []) ∧ '#' ∉ comment.getD [] := by
    cases comment with
    | none => exact ⟨collapsed_nil, by simp⟩
    | some c => exact h c rfl
  obtain ⟨collapsed, noComment⟩ := text
  obtain ⟨tokens, cut, insides⟩ := exists_isCut_splitTags collapsed.start
  obtain ⟨each, rest, suffix⟩ := cut.collapsed collapsed
  rw [read, trim_eq_self collapsed.toIsTrimmed, trim_eq_self rest.toIsTrimmed, insides] at said
  refine isPlain_of_addTags ?_ ?_ said
  · exact ⟨⟨rest, fun m => noComment (suffix.subset m)⟩, takeTag?_eq_none_iff.mpr cut.maximal,
      by simp, by simp, Or.inl ⟨rfl, rfl⟩, by simp⟩
  · intro tag ht
    obtain ⟨token, listed, rfl⟩ := List.mem_map.mp ht
    obtain ⟨spaced, part⟩ := each token listed
    exact isInside_trim spaced part noComment token.closed

end Metadata

end MessageDocs
