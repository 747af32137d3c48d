import Mathlib.Data.List.Chain
import MessageDocs.Proofs.Text.Split

/-! # Texts with one blank between their words

* `Text.IsTrimmed`: no white space at either end. `Text.trim_pad` undoes white space put there.
* `Text.IsSpaced`: no white space but blanks, and no two of them in a row. Every part of such a text
  is of the same kind.
* `Text.Collapsed` is both, and `Text.collapse_eq_self` says that collapsing changes nothing then.
-/

set_option autoImplicit false

namespace MessageDocs.Text

variable {c : Char} {t u a b w : Text} {ws : List Text}

theorem isSpace_blank : isSpace ' ' = true := by
  decide

/-! ## Trimming -/

structure IsTrimmed (t : Text) : Prop where
  start : ∀ c ∈ t.head?, isSpace c = false
  stop : ∀ c ∈ t.getLast?, isSpace c = false

theorem isTrimmed_nil : IsTrimmed [] :=
  ⟨by simp, by simp⟩

theorem trimStart_eq_self (h : ∀ c ∈ t.head?, isSpace c = false) : trimStart t = t := by
  cases t with
  | nil => rfl
  | cons c t => exact List.dropWhile_cons_of_neg (by simp [h c rfl])

theorem trimStart_append (ha : ∀ c ∈ a, isSpace c = true) (t : Text) :
    trimStart (a ++ t) = trimStart t :=
  List.dropWhile_append_of_pos ha

theorem trimEnd_eq_self (h : ∀ c ∈ t.getLast?, isSpace c = false) : trimEnd t = t := by
  have := @trimStart_eq_self t.reverse (by rwa [List.head?_reverse])
  rw [trimStart] at this
  rw [trimEnd, dropTail, this, List.reverse_reverse]

theorem trimEnd_append (hb : ∀ c ∈ b, isSpace c = true) (t : Text) :
    trimEnd (t ++ b) = trimEnd t := by
  have blanks : ∀ c ∈ b.reverse, isSpace c = true := fun c hc => hb c (List.mem_reverse.mp hc)
  rw [trimEnd, dropTail, List.reverse_append, List.dropWhile_append_of_pos blanks]
  rfl

/-- Trimming takes away just the white space around a trimmed text. -/
theorem trim_pad (ha : ∀ c ∈ a, isSpace c = true) (h : IsTrimmed t)
    (hb : ∀ c ∈ b, isSpace c = true) : trim (a ++ t ++ b) = t := by
  rw [trim, List.append_assoc, trimStart_append ha]
  by_cases empty : t = []
  · have gone : trimStart b = [] := List.dropWhile_eq_nil_iff.mpr hb
    rw [empty, List.nil_append, gone]
    rfl
  · have start : ∀ c ∈ (t ++ b).head?, isSpace c = false := by
      rw [List.head?_append_of_ne_nil _ empty]
      exact h.start
    rw [trimStart_eq_self start, trimEnd_append hb, trimEnd_eq_self h.stop]

theorem trim_eq_self (h : IsTrimmed t) : trim t = t := by
  rw [trim, trimStart_eq_self h.start, trimEnd_eq_self h.stop]

theorem trim_cons_blank (h : IsTrimmed t) : trim (' ' :: t) = t := by
  have := trim_pad (a := [' ']) (b := []) (by simp [isSpace_blank]) h (by simp)
  simpa using this

theorem trim_concat_blank (h : IsTrimmed t) : trim (t ++ [' ']) = t := by
  have := trim_pad (a := []) (b := [' ']) (by simp) h (by simp [isSpace_blank])
  simpa using this

theorem trimStart_suffix (t : Text) : trimStart t <:+ t :=
  List.dropWhile_suffix _

theorem trimEnd_isPrefix (t : Text) : trimEnd t <+: t := by
  rw [trimEnd, dropTail, ← List.reverse_suffix, List.reverse_reverse]
  exact List.dropWhile_suffix _

theorem trim_isInfix (t : Text) : trim t <:+: t :=
  (trimEnd_isPrefix _).isInfix.trans (trimStart_suffix t).isInfix

theorem trimStart_start (t : Text) : ∀ c ∈ (trimStart t).head?, isSpace c = false := by
  intro c hc
  have := List.head?_dropWhile_not isSpace t
  rw [trimStart] at hc
  rw [hc] at this
  simpa using this

theorem trimEnd_stop (t : Text) : ∀ c ∈ (trimEnd t).getLast?, isSpace c = false := by
  intro c hc
  rw [trimEnd, dropTail, List.getLast?_reverse] at hc
  exact trimStart_start t.reverse c hc

theorem isTrimmed_trim (t : Text) : IsTrimmed (trim t) := by
  refine ⟨fun c hc => ?_, trimEnd_stop _⟩
  obtain ⟨rest, eq⟩ := trimEnd_isPrefix (trimStart t)
  apply trimStart_start t
  rw [← eq]
  exact List.mem_head?_append_of_mem_head? hc

theorem trimStart_append_cons (h : isSpace c = false) (a b : Text) :
    trimStart (a ++ c :: b) = trimStart a ++ c :: b := by
  rw [trimStart, trimStart, List.dropWhile_append]
  split
  · next blank =>
    rw [List.isEmpty_iff.mp blank, List.nil_append]
    exact List.dropWhile_cons_of_neg (by simp [h])
  · rfl

theorem trimEnd_append_cons (h : isSpace c = false) (a b : Text) :
    trimEnd (a ++ c :: b) = a ++ c :: trimEnd b := by
  have := trimStart_append_cons h b.reverse a.reverse
  rw [trimStart, trimStart] at this
  rw [trimEnd, dropTail, List.reverse_append, List.reverse_cons, List.append_assoc,
    List.singleton_append, this]
  simp [trimEnd, dropTail]

/-- Around a mark a text is trimmed on its two sides. -/
theorem trim_append_cons (h : isSpace c = false) (a b : Text) :
    trim (a ++ c :: b) = trimStart a ++ c :: trimEnd b := by
  rw [trim, trimStart_append_cons h, trimEnd_append_cons h]

theorem exists_trimStart (t : Text) :
    ∃ a, t = a ++ trimStart t ∧ ∀ c ∈ a, isSpace c = true :=
  ⟨t.takeWhile isSpace, List.takeWhile_append_dropWhile.symm, fun _ => List.mem_takeWhile_imp⟩

theorem exists_trimEnd (t : Text) : ∃ b, t = trimEnd t ++ b ∧ ∀ c ∈ b, isSpace c = true := by
  obtain ⟨a, parts, blank⟩ := exists_trimStart t.reverse
  refine ⟨a.reverse, ?_, fun c hc => blank c (List.mem_reverse.mp hc)⟩
  have := congrArg List.reverse parts
  rwa [List.reverse_reverse, List.reverse_append] at this

theorem trim_eq_nil_iff : trim t = [] ↔ ∀ c ∈ t, isSpace c = true := by
  constructor
  · intro empty c hc
    obtain ⟨a, parts, before⟩ := exists_trimStart t
    obtain ⟨b, rest, after⟩ := exists_trimEnd (trimStart t)
    rw [trim] at empty
    rw [parts, rest, empty, List.nil_append] at hc
    exact (List.mem_append.mp hc).elim (before c) (after c)
  · intro blank
    have gone : trimStart t = [] := List.dropWhile_eq_nil_iff.mpr blank
    rw [trim, gone]
    rfl

theorem trim_ne_nil_iff : trim t ≠ [] ↔ ∃ c ∈ t, isSpace c = false := by
  rw [Ne, trim_eq_nil_iff]
  simp

theorem trim_trimEnd (t : Text) : trim (trimEnd t) = trim t := by
  by_cases blank : ∀ c ∈ t, isSpace c = true
  · have left : ∀ c ∈ trimEnd t, isSpace c = true := fun c hc =>
      blank c ((trimEnd_isPrefix t).subset hc)
    rw [trim_eq_nil_iff.mpr blank, trim_eq_nil_iff.mpr left]
  · obtain ⟨c, hc, solid⟩ : ∃ c ∈ t, isSpace c = false := by simpa using blank
    obtain ⟨a, b, rfl⟩ := List.append_of_mem hc
    rw [trimEnd_append_cons solid, trim_append_cons solid, trim_append_cons solid,
      trimEnd_eq_self (trimEnd_stop b)]

/-- A mark cuts a trimmed text where it cuts the text. -/
theorem cutAt_trim {mark : Char} (h : isSpace mark = false) (t : Text) :
    cutAt mark (trim t) = (cutAt mark t).map fun cut => (trimStart cut.1, trimEnd cut.2) := by
  cases cut : cutAt mark t with
  | none =>
    have absent := cutAt_eq_none_iff.mp cut
    exact cutAt_eq_none_iff.mpr fun m => absent ((trim_isInfix t).subset m)
  | some parts =>
    obtain ⟨a, b⟩ := parts
    obtain ⟨first, rfl⟩ := cutAt_eq_some_iff.mp cut
    rw [trim_append_cons h]
    exact cutAt_append_cons (fun m => first ((trimStart_suffix a).subset m)) _

theorem IsTrimmed.append_between (ha : IsTrimmed a) (a_ne : a ≠ []) (hb : IsTrimmed b)
    (b_ne : b ≠ []) (between : Text) : IsTrimmed (a ++ (between ++ b)) := by
  constructor
  · rw [List.head?_append_of_ne_nil _ a_ne]
    exact ha.start
  · rw [← List.append_assoc, List.getLast?_append_of_ne_nil _ b_ne]
    exact hb.stop

/-! ## Spacing -/

structure IsSpaced (t : Text) : Prop where
  blanks : ∀ c ∈ t, isSpace c = true → c = ' '
  apart : t.IsChain fun c d => isSpace c = false ∨ isSpace d = false

theorem IsSpaced.part (h : IsSpaced t) (inside : u <:+: t) : IsSpaced u :=
  ⟨fun c hc => h.blanks c (inside.subset hc), List.IsChain.infix h.apart inside⟩

theorem IsSpaced.not_mem (h : IsSpaced t) (space : isSpace c = true) (other : c ≠ ' ') : c ∉ t :=
  fun m => other (h.blanks c m space)

theorem IsSpaced.append (ha : IsSpaced a) (hb : IsSpaced b)
    (seam : ∀ c ∈ a.getLast?, ∀ d ∈ b.head?, isSpace c = false ∨ isSpace d = false) :
    IsSpaced (a ++ b) := by
  refine ⟨?_, ha.apart.append hb.apart seam⟩
  intro c hc
  rcases List.mem_append.mp hc with hc | hc
  · exact ha.blanks c hc
  · exact hb.blanks c hc

/-- A text that does not begin with white space may follow a spaced one. -/
theorem IsSpaced.append_trimmed (ha : IsSpaced a) (hb : IsSpaced b)
    (start : ∀ c ∈ b.head?, isSpace c = false) : IsSpaced (a ++ b) :=
  ha.append hb fun _ _ d hd => Or.inr (start d hd)

theorem IsSpaced.append_after (ha : IsSpaced a) (stop : ∀ c ∈ a.getLast?, isSpace c = false)
    (hb : IsSpaced b) : IsSpaced (a ++ b) :=
  ha.append hb fun c hc _ _ => Or.inl (stop c hc)

theorem isSpaced_singleton (h : isSpace c = true → c = ' ') : IsSpaced [c] := by
  refine ⟨?_, List.isChain_singleton c⟩
  intro d hd
  rwa [List.mem_singleton.mp hd]

theorem isSpaced_mark (h : isSpace c = false) : IsSpaced [c] :=
  isSpaced_singleton fun space => absurd space (by simp [h])

theorem IsSpaced.cons (h : IsSpaced t) (hc : isSpace c = false) : IsSpaced (c :: t) :=
  (isSpaced_mark hc).append_after (by simpa using hc) h

theorem IsSpaced.cons_blank (h : IsSpaced t) (start : ∀ c ∈ t.head?, isSpace c = false) :
    IsSpaced (' ' :: t) :=
  (isSpaced_singleton fun _ => rfl).append_trimmed h start

structure Collapsed (t : Text) : Prop extends IsTrimmed t, IsSpaced t

theorem collapsed_nil : Collapsed [] :=
  ⟨isTrimmed_nil, by simp, List.isChain_nil⟩

theorem IsSpaced.collapsed_trim (h : IsSpaced t) : Collapsed (trim t) :=
  ⟨isTrimmed_trim t, h.part (trim_isInfix t)⟩

/-- The end of a collapsed text is one, once no white space is left before it. -/
theorem Collapsed.trimStart (h : Collapsed t) (tail : u <:+ t) : Collapsed (trimStart u) := by
  have short : Text.trimStart u <:+ t := (trimStart_suffix u).trans tail
  refine ⟨⟨trimStart_start u, ?_⟩, h.toIsSpaced.part short.isInfix⟩
  intro c hc
  apply h.stop c
  obtain ⟨rest, rfl⟩ := short
  exact List.mem_getLast?_append_of_mem_getLast? hc

/-- Marks around a spaced text make it a collapsed one. -/
theorem IsSpaced.enclose (h : IsSpaced t) {l r : Char} (hl : isSpace l = false)
    (hr : isSpace r = false) : Collapsed (l :: t ++ [r]) := by
  refine ⟨⟨?_, ?_⟩, (h.cons hl).append_trimmed (isSpaced_mark hr) ?_⟩
  · rintro c ⟨⟩
    exact hl
  · intro c hc
    rw [List.getLast?_concat] at hc
    cases hc
    exact hr
  · rintro c ⟨⟩
    exact hr

theorem Collapsed.append_blank (ha : Collapsed a) (hb : Collapsed b) (a_ne : a ≠ [])
    (b_ne : b ≠ []) : Collapsed (a ++ ' ' :: b) := by
  have right : IsSpaced (' ' :: b) := hb.toIsSpaced.cons_blank hb.start
  refine ⟨⟨?_, ?_⟩, ha.toIsSpaced.append_after ha.stop right⟩
  · rw [List.head?_append_of_ne_nil _ a_ne]
    exact ha.start
  · rw [List.getLast?_append_of_ne_nil _ (by simp), List.getLast?_cons_of_ne_nil b_ne]
    exact hb.stop

/-- A mark may join collapsed texts, either of which may be empty. -/
theorem Collapsed.append_mark (ha : Collapsed a) (hb : Collapsed b) (hc : isSpace c = false) :
    Collapsed (a ++ c :: b) := by
  have right : IsSpaced (c :: b) := hb.toIsSpaced.cons hc
  refine ⟨⟨?_, ?_⟩, ha.toIsSpaced.append_trimmed right (by simpa using hc)⟩
  · intro d hd
    by_cases empty : a = []
    · rw [empty] at hd
      cases hd
      exact hc
    · rw [List.head?_append_of_ne_nil _ empty] at hd
      exact ha.start d hd
  · intro d hd
    rw [List.getLast?_append_of_ne_nil _ (List.cons_ne_nil c b)] at hd
    by_cases empty : b = []
    · rw [empty] at hd
      cases hd
      exact hc
    · rw [List.getLast?_cons_of_ne_nil empty] at hd
      exact hb.stop d hd

/-! ## Words -/

structure IsWord (w : Text) : Prop where
  ne_nil : w ≠ []
  solid : ∀ c ∈ w, isSpace c = false

theorem IsWord.collapsed (h : IsWord w) : Collapsed w := by
  refine ⟨⟨?_, ?_⟩, ?_, ?_⟩
  · exact fun c hc => h.solid c (List.mem_of_mem_head? hc)
  · exact fun c hc => h.solid c (List.mem_of_getLast? hc)
  · intro c hc space
    rw [h.solid c hc] at space
    cases space
  · exact (List.pairwise_iff_forall_sublist.mpr fun s =>
      Or.inl (h.solid _ (s.subset (by simp)))).isChain

theorem isWord_singleton (h : isSpace c = false) : IsWord [c] :=
  ⟨by simp, by simpa using h⟩

theorem IsWord.append (ha : IsWord a) (hb : IsWord b) : IsWord (a ++ b) := by
  refine ⟨by simp [ha.ne_nil], ?_⟩
  intro c hc
  rcases List.mem_append.mp hc with hc | hc
  · exact ha.solid c hc
  · exact hb.solid c hc

theorem isWord_of_all (ne : w ≠ []) (h : w.all (fun c => !isSpace c) = true) : IsWord w :=
  ⟨ne, fun c hc => by simpa using List.all_eq_true.mp h c hc⟩

theorem words_append_cons (h : isSpace c = true) (a b : Text) :
    words (a ++ c :: b) = words a ++ words b := by
  rw [words, split_append_cons h, List.filter_append]
  rfl

theorem words_append_of_blank (ha : ∀ c ∈ a, isSpace c = true) (t : Text) :
    words (a ++ t) = words t := by
  induction a with
  | nil => rfl
  | cons c a ih =>
    obtain ⟨here, rest⟩ := List.forall_mem_cons.mp ha
    have first := words_append_cons here [] (a ++ t)
    rw [List.nil_append] at first
    rw [List.cons_append, first, ih rest]
    rfl

theorem words_of_blank (h : ∀ c ∈ t, isSpace c = true) : words t = [] := by
  have := words_append_of_blank h []
  rw [List.append_nil] at this
  rw [this]
  rfl

theorem words_append_blank (hb : ∀ c ∈ b, isSpace c = true) (t : Text) :
    words (t ++ b) = words t := by
  cases b with
  | nil => rw [List.append_nil]
  | cons c b =>
    obtain ⟨here, rest⟩ := List.forall_mem_cons.mp hb
    rw [words_append_cons here, words_of_blank rest, List.append_nil]

theorem words_trimStart (t : Text) : words (trimStart t) = words t := by
  obtain ⟨a, parts, blank⟩ := exists_trimStart t
  conv_rhs => rw [parts]
  exact (words_append_of_blank blank _).symm

/-- The words of a text do not depend on the white space around it. -/
theorem words_trim (t : Text) : words (trim t) = words t := by
  obtain ⟨b, parts, blank⟩ := exists_trimEnd (trimStart t)
  rw [← words_trimStart t, trim]
  conv_rhs => rw [parts]
  exact (words_append_blank blank _).symm

theorem words_of_isWord (h : IsWord w) : words w = [w] := by
  rw [words, split_eq_singleton h.solid]
  simp [h.ne_nil]

/-- A word with white space or nothing after it is the first one. -/
theorem words_append_of_isWord (h : IsWord w) (stop : ∀ c ∈ t.head?, isSpace c = true) :
    words (w ++ t) = w :: words t := by
  cases t with
  | nil =>
    rw [List.append_nil, words_of_isWord h]
    rfl
  | cons c t =>
    have space : isSpace c = true := stop c rfl
    have after : words (c :: t) = words t := words_append_of_blank (a := [c]) (by simp [space]) t
    rw [words_append_cons space, words_of_isWord h, after]
    rfl

/-- A text that does not begin with white space begins with a word, unless it is empty. -/
theorem exists_isWord_append (ne : t ≠ []) (start : ∀ c ∈ t.head?, isSpace c = false) :
    ∃ w u, t = w ++ u ∧ IsWord w ∧ ∀ c ∈ u.head?, isSpace c = true := by
  refine ⟨t.takeWhile fun c => !isSpace c, t.dropWhile fun c => !isSpace c,
    List.takeWhile_append_dropWhile.symm, ⟨?_, ?_⟩, ?_⟩
  · obtain ⟨c, t, rfl⟩ := List.exists_cons_of_ne_nil ne
    have solid : isSpace c = false := start c rfl
    simp [solid]
  · intro c hc
    simpa using List.mem_takeWhile_imp hc
  · intro c hc
    have first := List.head?_dropWhile_not (fun c => !isSpace c) t
    rw [Option.mem_def.mp hc] at first
    simpa using first

theorem isWord_of_mem_words (h : w ∈ words t) : IsWord w := by
  obtain ⟨piece, full⟩ := List.mem_filter.mp h
  exact ⟨by simpa using full, fun c hc => not_cut_of_mem_split piece hc⟩

theorem infix_of_mem_words (h : w ∈ words t) : w <:+: t :=
  (infix_of_mem_split t).2 w (List.mem_filter.mp h).1

theorem join_ne_nil (h : ∀ w ∈ ws, w ≠ []) (ws_ne : ws ≠ []) : join " " ws ≠ [] := by
  cases ws with
  | nil => exact absurd rfl ws_ne
  | cons w rest =>
    have := h w List.mem_cons_self
    cases rest with
    | nil => simpa [join, List.intercalate_singleton] using this
    | cons _ _ => simp [join_cons_cons, this]

/-- Collapsed texts with a blank between them are a collapsed text. -/
theorem collapsed_join (h : ∀ w ∈ ws, Collapsed w ∧ w ≠ []) : Collapsed (join " " ws) := by
  induction ws with
  | nil => exact collapsed_nil
  | cons w ws ih =>
    obtain ⟨here, rest⟩ := List.forall_mem_cons.mp h
    cases ws with
    | nil => simpa [join, List.intercalate_singleton] using here.1
    | cons v ws =>
      have tail_ne : join " " (v :: ws) ≠ [] :=
        join_ne_nil (fun w hw => (rest w hw).2) (List.cons_ne_nil v ws)
      rw [join_cons_cons]
      simpa using here.1.append_blank (ih rest) here.2 tail_ne

theorem words_join (h : ∀ w ∈ ws, IsWord w) : words (join " " ws) = ws := by
  induction ws with
  | nil => rfl
  | cons w ws ih =>
    obtain ⟨here, rest⟩ := List.forall_mem_cons.mp h
    cases ws with
    | nil => simpa [join, List.intercalate_singleton] using words_of_isWord here
    | cons v ws =>
      have seam : join " " (w :: v :: ws) = w ++ ' ' :: join " " (v :: ws) := by
        simp [join_cons_cons]
      rw [seam, words_append_cons isSpace_blank, words_of_isWord here, ih rest]
      rfl

theorem collapsed_collapse (t : Text) : Collapsed (collapse t) :=
  collapsed_join fun _ hw => ⟨(isWord_of_mem_words hw).collapsed, (isWord_of_mem_words hw).ne_nil⟩

/-- Cut at its first blank, a collapsed text is a word and another collapsed text. -/
theorem Collapsed.cut_blank (h : Collapsed (a ++ ' ' :: b)) (first : ' ' ∉ a) :
    IsWord a ∧ Collapsed b ∧ b ≠ [] := by
  have blank := isSpace_blank
  have a_ne : a ≠ [] := by
    rintro rfl
    have := h.start ' ' rfl
    rw [blank] at this
    cases this
  have b_ne : b ≠ [] := by
    rintro rfl
    have := h.stop ' ' (by simp)
    rw [blank] at this
    cases this
  have after : (' ' :: b) <:+: (a ++ ' ' :: b) := (List.suffix_append a _).isInfix
  refine ⟨⟨a_ne, ?_⟩, ⟨⟨?_, ?_⟩, h.toIsSpaced.part ?_⟩, b_ne⟩
  · intro c hc
    by_contra space
    rw [Bool.not_eq_false] at space
    have := h.blanks c (List.mem_append_left _ hc) space
    exact first (this ▸ hc)
  · intro c hc
    obtain ⟨rest, rfl⟩ := List.head?_eq_some_iff.mp hc
    have chain := List.IsChain.infix h.apart after
    simpa [blank] using (List.isChain_cons_cons.mp chain).1
  · intro c hc
    apply h.stop c
    rw [List.getLast?_append_of_ne_nil _ (List.cons_ne_nil _ _), List.getLast?_cons_of_ne_nil b_ne]
    exact hc
  · exact (List.suffix_cons ' ' b).isInfix.trans after

theorem collapse_eq_self (h : Collapsed t) : collapse t = t := by
  -- what follows the first blank is shorter
  induction size : t.length using Nat.strong_induction_on generalizing t with
  | _ n ih =>
    cases cut : cutAt ' ' t with
    | none =>
      have solid : ∀ c ∈ t, isSpace c = false := by
        intro c hc
        by_contra space
        rw [Bool.not_eq_false] at space
        exact cutAt_eq_none_iff.mp cut (h.blanks c hc space ▸ hc)
      by_cases empty : t = []
      · rw [empty]
        rfl
      · rw [collapse, words_of_isWord ⟨empty, solid⟩]
        exact List.intercalate_singleton
    | some parts =>
      obtain ⟨a, b⟩ := parts
      obtain ⟨first, rfl⟩ := cutAt_eq_some_iff.mp cut
      obtain ⟨word, rest, b_ne⟩ := h.cut_blank first
      have again := ih b.length (by simp [← size]; omega) rest rfl
      rw [collapse] at again
      have some_words : words b ≠ [] := by
        intro none
        rw [none] at again
        exact b_ne again.symm
      obtain ⟨v, vs, eq⟩ := List.exists_cons_of_ne_nil some_words
      rw [eq] at again
      rw [collapse, words_append_cons isSpace_blank, words_of_isWord word, eq,
        List.singleton_append, join_cons_cons, again]
      simp

end MessageDocs.Text
