import MessageDocs.Proofs.Path.Components

/-! # What remains of a path that is taken apart

A path that is taken apart keeps the form in which it was written, as far as it remains.

* `Path.IsWritten`: the segments of a relative path that has no insignificant ones at its ends.
* `Path.stripPrefix?_spec`: what remains of a path after a base.
* `Path.parent?_spec`: the parent has all components but the last one.
-/

set_option autoImplicit false

namespace MessageDocs.Path

/-! ## Relative paths that are written without need -/

/-- Segments as they are written for a relative path: they have no slash, and neither the first
nor the last one is insignificant. -/
structure IsWritten (segments : List Text) : Prop where
  plain : ∀ s ∈ segments, '/' ∉ s
  first : ∀ s ∈ segments.head?, isSignificant s = true
  last : ∀ s ∈ segments.getLast?, isSignificant s = true

theorem isWritten_names {names : List Text} (h : ∀ n ∈ names, IsName n) : IsWritten names where
  plain := fun n hn => not_mem_of_isName (h n hn)
  first := fun n hn => isSignificant_of_isName (h n (List.mem_of_mem_head? hn))
  last := fun n hn => isSignificant_of_isName (h n (List.mem_of_getLast? hn))

namespace IsWritten

variable {segments more : List Text}

theorem segmentsOf_eq (h : IsWritten segments) (some_segments : segments ≠ []) :
    segmentsOf (ofNames segments).text = segments :=
  Text.split_join h.plain some_segments

theorem isAbsolute_eq (h : IsWritten segments) : (ofNames segments).isAbsolute = false := by
  by_contra absolute
  obtain ⟨rest, text⟩ := isAbsolute_iff.mp (Bool.not_eq_false _ ▸ absolute)
  cases segments with
  | nil => cases text
  | cons s segments =>
    have cut := h.segmentsOf_eq (List.cons_ne_nil s segments)
    rw [text, segmentsOf_cons_slash] at cut
    obtain ⟨rfl, -⟩ := List.cons.inj cut
    cases h.first [] rfl

/-- The segments are those that are written, without a lead. -/
theorem parts_eq (h : IsWritten segments) :
    (ofNames segments).parts = ⟨none, segmentsOf (ofNames segments).text⟩ := by
  have no_dot : ∀ rest, segmentsOf (ofNames segments).text ≠ ['.'] :: rest := by
    intro rest cut
    cases segments with
    | nil => cases cut
    | cons s segments =>
      rw [h.segmentsOf_eq (List.cons_ne_nil s segments)] at cut
      obtain ⟨rfl, -⟩ := List.cons.inj cut
      cases h.first ['.'] rfl
  unfold parts
  split
  · next rest text =>
    have absolute := isAbsolute_iff.mpr ⟨rest, text⟩
    rw [h.isAbsolute_eq] at absolute
    cases absolute
  · next text =>
    exact absurd (by rw [text]; rfl) (no_dot [])
  · next rest text =>
    exact absurd (by rw [text]; exact Text.split_append_cons (a := ['.']) (by simp) rest)
      (no_dot (segmentsOf rest))
  · rfl

theorem components_eq (h : IsWritten segments) :
    (ofNames segments).components = componentsOf segments := by
  rw [Path.components_eq, h.parts_eq, ofNames, componentsOf_segmentsOf_join h.plain]
  rfl

theorem append (h : IsWritten segments) (h' : IsWritten more) : IsWritten (segments ++ more) where
  plain := by
    intro s hs
    rcases List.mem_append.mp hs with hs | hs
    · exact h.plain s hs
    · exact h'.plain s hs
  first := by
    cases segments with
    | nil => exact h'.first
    | cons => exact h.first
  last := by
    rcases List.eq_nil_or_concat' more with rfl | ⟨before, s, rfl⟩
    · rw [List.append_nil]
      exact h.last
    · have last := h'.last
      rw [List.getLast?_concat] at last
      rwa [← List.append_assoc, List.getLast?_concat]

/-- Written segments do not end with a slash. -/
theorem getLast?_ne_slash (h : IsWritten segments) :
    (ofNames segments).text.getLast? ≠ some '/' := by
  intro slash
  obtain ⟨before, text⟩ := List.getLast?_eq_some_iff.mp slash
  cases segments with
  | nil =>
    cases slash
  | cons s segments =>
    have cut := h.segmentsOf_eq (List.cons_ne_nil s segments)
    rw [text, segmentsOf, Text.split_append_cons (by simp)] at cut
    have last : (s :: segments).getLast? = some [] := by
      rw [← cut]
      exact List.getLast?_concat
    cases h.last [] last

/-- **Joining** appends segments. -/
theorem join_eq (h : IsWritten segments) (h' : IsWritten more) (some_more : more ≠ []) :
    (ofNames segments).join (ofNames more) = ofNames (segments ++ more) := by
  rw [join, if_neg (by simp [h'.isAbsolute_eq])]
  cases segments with
  | nil => rfl
  | cons s segments =>
    have some_text : (ofNames (s :: segments)).text ≠ [] := by
      intro none
      have cut := h.segmentsOf_eq (List.cons_ne_nil s segments)
      rw [none] at cut
      obtain ⟨rfl, -⟩ := List.cons.inj cut
      cases h.first [] rfl
    rw [if_neg (not_or.mpr ⟨some_text, h.getLast?_ne_slash⟩)]
    exact congrArg Path.mk (Text.join_append (List.cons_ne_nil s segments) some_more).symm

end IsWritten

theorem componentsOf_ofNames {names : List Text} (h : ∀ n ∈ names, IsName n) :
    componentsOf (segmentsOf (ofNames names).text) = names.map .name := by
  rw [ofNames, componentsOf_segmentsOf_join (isWritten_names h).plain, componentsOf_names h]

theorem components_ofNames {names : List Text} (h : ∀ n ∈ names, IsName n) :
    (ofNames names).components = names.map .name :=
  (isWritten_names h).components_eq.trans (componentsOf_names h)

theorem components_ofNames_prefix_iff {a b : List Text} (ha : ∀ n ∈ a, IsName n)
    (hb : ∀ n ∈ b, IsName n) :
    (ofNames a).components <+: (ofNames b).components ↔ a <+: b := by
  rw [components_ofNames ha, components_ofNames hb]
  exact List.prefix_map_iff_of_injective fun _ _ same => Component.name.inj same

theorem isAbsolute_ofNames {names : List Text} (h : ∀ n ∈ names, IsName n) :
    (ofNames names).isAbsolute = false :=
  (isWritten_names h).isAbsolute_eq

theorem isAbsolute_absolute (names : List Text) : (absolute names).isAbsolute = true :=
  isAbsolute_iff.mpr ⟨_, rfl⟩

theorem components_absolute {names : List Text} (h : ∀ n ∈ names, IsName n) :
    (absolute names).components = .root :: names.map .name := by
  rw [components_of_isAbsolute (isAbsolute_absolute names)]
  change _ :: componentsOf (segmentsOf ('/' :: Text.join "/" names)) = _
  rw [segmentsOf_cons_slash, componentsOf_cons_nil, ← componentsOf_ofNames h]
  rfl

/-! ## Taking apart -/

theorem startsWith_iff {p base : Path} :
    p.startsWith base = true ↔ base.components <+: p.components := by
  rw [startsWith, List.isPrefixOf_iff_prefix]

/-- Whether a path is written without insignificant segments, save at its end. -/
def IsTidy (p : Path) : Prop :=
  ∀ s ∈ trimSegmentsEnd p.parts.segments, isSignificant s = true

/-- **What remains of a path** after a base has the components that remain, and is written as the
path is. -/
theorem stripPrefix?_spec {p base : Path} (absolute : p.isAbsolute = true)
    (some_components : base.components ≠ []) (starts : base.components <+: p.components) :
    ∃ segments, p.stripPrefix? base = some (ofNames segments) ∧ IsWritten segments ∧
      p.components = base.components ++ componentsOf segments ∧
      (p.IsTidy → ∀ s ∈ segments, isSignificant s = true) := by
  obtain ⟨n, length⟩ : ∃ n, base.components.length = n + 1 :=
    ⟨base.components.length - 1, by have := List.length_pos_of_ne_nil some_components; omega⟩
  obtain ⟨lead, segments⟩ := parts_of_isAbsolute absolute
  -- The leading slash is a component of its own, so one segment less is dropped.
  have left : p.components.drop (n + 1) = (componentsOf p.parts.segments).drop n := by
    rw [components_of_isAbsolute absolute, List.drop_succ_cons, segments]
  have inside : (dropSegments n p.parts.segments).dropWhile (!isSignificant ·) <:+
      p.parts.segments :=
    (List.dropWhile_suffix _).trans (dropSegments_suffix n _)
  refine ⟨trimSegmentsEnd ((dropSegments n p.parts.segments).dropWhile (!isSignificant ·)),
    ?_, ⟨?_, ?_, ?_⟩, ?_, ?_⟩
  · rw [stripPrefix?, if_pos (List.isPrefixOf_iff_prefix.mpr starts), length]
    dsimp only
    rw [lead]
    rfl
  · intro s hs
    exact not_mem_of_mem_parts (inside.subset ((trimSegmentsEnd_isPrefix _).subset hs))
  · intro s hs
    obtain ⟨more, eq⟩ := trimSegmentsEnd_isPrefix
      ((dropSegments n p.parts.segments).dropWhile (!isSignificant ·))
    have first : ((dropSegments n p.parts.segments).dropWhile (!isSignificant ·)).head? =
        some s := by
      rw [← eq, List.head?_append, Option.mem_def.mp hs]
      rfl
    have significant := List.head?_dropWhile_not (!isSignificant ·)
      (dropSegments n p.parts.segments)
    rw [first] at significant
    simpa using significant
  · exact fun s hs => isSignificant_getLast hs
  · rw [componentsOf_trimSegmentsEnd, componentsOf_dropWhile, componentsOf_dropSegments, ← left,
      ← length]
    obtain ⟨more, eq⟩ := starts
    rw [← eq, List.drop_left]
  · intro tidy s hs
    exact tidy s (trimSegmentsEnd_subset inside hs)

/-- Significant segments are known by their components. -/
theorem segments_eq_of_componentsOf {segments names : List Text}
    (significant : ∀ s ∈ segments, isSignificant s = true)
    (h : componentsOf segments = names.map .name) : segments = names := by
  induction segments generalizing names with
  | nil => exact (List.map_eq_nil_iff.mp h.symm).symm
  | cons s segments ih =>
    obtain ⟨here, rest⟩ := List.forall_mem_cons.mp significant
    obtain ⟨c, hc⟩ := Option.isSome_iff_exists.mp here
    rw [componentsOf, List.filterMap_cons_some hc] at h
    obtain ⟨n, names, rfl⟩ : ∃ n rest, names = n :: rest := by
      cases names with
      | nil => cases h
      | cons n names => exact ⟨n, names, rfl⟩
    obtain ⟨rfl, others⟩ := List.cons.inj h
    rw [ih rest others, name_of_ofSegment? hc]

/-- **The parent** of an absolute path has all its components but the last one. -/
theorem parent?_spec {p q : Path} (absolute : p.isAbsolute = true) (h : p.parent? = some q) :
    q.isAbsolute = true ∧ q.components = p.components.dropLast := by
  obtain ⟨lead, segments⟩ := parts_of_isAbsolute absolute
  rw [parent?] at h
  split at h
  · next some_segment =>
    have text : q = ⟨'/' :: Text.join "/" (dropLastSegment p.parts.segments)⟩ := by
      rw [← Option.some.inj h, ofParts, lead]
      rfl
    have starts : q.isAbsolute = true := isAbsolute_iff.mpr ⟨_, congrArg Path.text text⟩
    have plain : ∀ s ∈ dropLastSegment p.parts.segments, '/' ∉ s := by
      intro s hs
      have inside := List.mem_of_mem_dropLast ((trimSegmentsEnd_isPrefix _).subset hs)
      exact not_mem_of_mem_parts ((trimSegmentsEnd_isPrefix _).subset inside)
    refine ⟨starts, ?_⟩
    have some_component : componentsOf (segmentsOf p.text) ≠ [] := by
      rw [← segments]
      obtain ⟨s, hs, significant⟩ := List.any_eq_true.mp some_segment
      obtain ⟨c, hc⟩ := Option.isSome_iff_exists.mp significant
      exact List.ne_nil_of_mem (List.mem_filterMap.mpr ⟨s, hs, hc⟩)
    rw [components_of_isAbsolute starts, components_of_isAbsolute absolute,
      List.dropLast_cons_of_ne_nil some_component, text]
    dsimp only
    rw [segmentsOf_cons_slash, componentsOf_cons_nil, componentsOf_segmentsOf_join plain,
      componentsOf_dropLastSegment, segments]
  · rw [lead] at h
    simp at h

end MessageDocs.Path
