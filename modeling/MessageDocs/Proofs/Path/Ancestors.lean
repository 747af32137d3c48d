import MessageDocs.Proofs.Discovery.Anchors
import MessageDocs.Proofs.Path.Names

/-! # Ancestors of a path

The ancestors of an absolute path have its components, one less at each step. Each but the path
itself is written as a beginning of it, and ends with a name unless it is the root.

* `Path.EndsInName`: paths that are written with a name, or `..`, at their end.
* `Path.parent?_text`: how the parent of a path is written.
* `Path.exists_ancestor`: there is one ancestor for each beginning of the components.
* `Path.byteLength_slashed_le`: a path that is cut off behind a name is no longer than another
  beginning with the same components.
-/

set_option autoImplicit false

namespace MessageDocs

namespace Text

/-- Pieces between marks are joined to the text they were cut from. -/
theorem join_split (mark : Char) (t : Text) : join [mark] (split (· == mark) t) = t := by
  rw [join, split_eq_splitOnP]
  exact List.intercalate_splitOn mark

theorem join_prefix {separator : Text} {pieces all : List Text} (h : pieces <+: all) :
    join separator pieces <+: join separator all := by
  obtain ⟨more, rfl⟩ := h
  by_cases none : pieces = []
  · rw [none]
    exact List.nil_prefix
  · by_cases all_of_them : more = []
    · rw [all_of_them, List.append_nil]
    · rw [join_append none all_of_them]
      exact List.prefix_append _ _

end Text

namespace Path

/-! ## How an ancestor is written -/

/-- Whether a path is written with a name, or `..`, at its end. -/
def EndsInName (p : Path) : Prop :=
  ∀ s ∈ (segmentsOf p.text).getLast?, isSignificant s = true

theorem endsInName_join {p q : Path} (relative : q.isAbsolute = false) (h : q.EndsInName) :
    (p.join q).EndsInName := by
  obtain ⟨before, segments, -⟩ := exists_segmentsOf_join p relative
  have some_segments : segmentsOf q.text ≠ [] := Text.split_ne_nil _ _
  rw [EndsInName, segments, List.getLast?_append_of_ne_nil _ some_segments]
  exact h

theorem IsWritten.endsInName {segments : List Text} (h : IsWritten segments)
    (some_segments : segments ≠ []) : (ofNames segments).EndsInName := by
  rw [EndsInName, h.segmentsOf_eq some_segments]
  exact h.last

/-- Segments that are trimmed, behind the leading slash. -/
theorem endsInName_or_root {segments : List Text} (plain : ∀ s ∈ segments, '/' ∉ s)
    (last : ∀ s ∈ segments.getLast?, isSignificant s = true) :
    (⟨'/' :: Text.join "/" segments⟩ : Path).text = ['/'] ∨
      (⟨'/' :: Text.join "/" segments⟩ : Path).EndsInName := by
  by_cases none : segments = []
  · rw [none]
    exact Or.inl rfl
  · have cut : segmentsOf (Text.join "/" segments) = segments := Text.split_join plain none
    refine Or.inr ?_
    rw [EndsInName, segmentsOf_cons_slash, cut, ← List.singleton_append,
      List.getLast?_append_of_ne_nil _ none]
    exact last

theorem dropLastSegment_isPrefix (segments : List Text) : dropLastSegment segments <+: segments :=
  (trimSegmentsEnd_isPrefix _).trans ((List.dropLast_prefix _).trans (trimSegmentsEnd_isPrefix _))

/-- **The parent** of an absolute path is written as its beginning, cut off behind a name. -/
theorem parent?_text {p q : Path} (absolute : p.isAbsolute = true) (h : p.parent? = some q) :
    q.text <+: p.text ∧ (q.text = ['/'] ∨ q.EndsInName) := by
  obtain ⟨rest, text⟩ := isAbsolute_iff.mp absolute
  have parts_eq : p.parts = ⟨some .root, segmentsOf rest⟩ := by
    rw [parts, text]
    rfl
  have start := dropLastSegment_isPrefix (segmentsOf rest)
  rw [parent?, parts_eq] at h
  split at h
  · obtain rfl : ⟨'/' :: Text.join "/" (dropLastSegment (segmentsOf rest))⟩ = q :=
      Option.some.inj h
    refine ⟨?_, endsInName_or_root ?_ ?_⟩
    · have whole : Text.join "/" (segmentsOf rest) = rest := Text.join_split '/' rest
      have beginning : Text.join "/" (dropLastSegment (segmentsOf rest)) <+:
          Text.join "/" (segmentsOf rest) := Text.join_prefix start
      rw [whole] at beginning
      rw [text, List.prefix_cons_inj]
      exact beginning
    · exact fun s hs => not_mem_of_mem_segmentsOf (start.subset hs)
    · exact fun s hs => isSignificant_getLast hs
  · cases h

/-! ## Parents of paths that may be relative -/

theorem componentsOf_ofParts {parts : Parts} (plain : ∀ s ∈ parts.segments, '/' ∉ s)
    (behind : parts.lead = some .here → ∀ s ∈ parts.segments.head?, s = []) :
    componentsOf (segmentsOf (ofParts parts).text) = componentsOf parts.segments := by
  obtain ⟨lead, segments⟩ := parts
  have joined : componentsOf (segmentsOf (Text.join "/" segments)) = componentsOf segments :=
    componentsOf_segmentsOf_join plain
  cases lead with
  | none => exact joined
  | some c =>
    cases c with
    | up => exact joined
    | name n => exact joined
    | root =>
      change componentsOf (segmentsOf ('/' :: Text.join "/" segments)) = _
      rw [segmentsOf_cons_slash, componentsOf_cons_nil, joined]
    | here =>
      cases segments with
      | nil => rfl
      | cons s segments =>
        obtain rfl : s = [] := behind rfl s rfl
        cases segments with
        | nil => rfl
        | cons s segments =>
          have rest : componentsOf (segmentsOf (Text.join "/" (s :: segments))) =
              componentsOf (s :: segments) :=
            componentsOf_segmentsOf_join fun s hs => plain s (List.mem_cons_of_mem _ hs)
          have text : (ofParts ⟨some .here, [] :: s :: segments⟩).text =
              ['.'] ++ '/' :: Text.join "/" (s :: segments) := by
            rw [ofParts, Text.join_cons_cons]
            rfl
          rw [text, componentsOf_segmentsOf_append_slash, rest]
          rfl

theorem componentsOf_parts (p : Path) :
    componentsOf p.parts.segments = componentsOf (segmentsOf p.text) :=
  List.append_cancel_left (components_eq p)

theorem head?_parts {p : Path} (lead : p.parts.lead = some .here) :
    ∀ s ∈ p.parts.segments.head?, s = [] := by
  unfold parts at lead ⊢
  split at lead
  · cases lead
  · simp
  · next rest _ =>
    rw [segmentsOf_cons_slash]
    simp
  · cases lead

/-- **The parent** of a path has all its components but the last one. -/
theorem componentsOf_parent {p q : Path} (h : p.parent? = some q) :
    componentsOf (segmentsOf q.text) = (componentsOf (segmentsOf p.text)).dropLast := by
  rw [← componentsOf_parts p]
  rw [parent?] at h
  split at h
  · obtain rfl := Option.some.inj h
    have start := dropLastSegment_isPrefix p.parts.segments
    rw [componentsOf_ofParts, componentsOf_dropLastSegment]
    · exact fun s hs => not_mem_of_mem_parts (start.subset hs)
    · intro lead s hs
      refine head?_parts lead s ?_
      obtain ⟨more, whole⟩ := start
      rw [← whole, List.head?_append, Option.mem_def.mp hs]
      rfl
  · next none =>
    split at h
    · obtain rfl := Option.some.inj h
      have nothing : componentsOf p.parts.segments = [] :=
        componentsOf_eq_nil (by simpa using none)
      rw [nothing]
      rfl
    · cases h

theorem isAbsolute_parent {p q : Path} (h : p.parent? = some q) :
    q.isAbsolute = p.isAbsolute := by
  cases absolute : p.isAbsolute with
  | true => exact (parent?_spec absolute h).1
  | false =>
    rw [parent?] at h
    split at h
    · obtain rfl := Option.some.inj h
      rcases lead_of_not_isAbsolute absolute with nothing | here
      · have lead : p.parts.lead = none := by simpa using nothing
        have segments : p.parts.segments = segmentsOf p.text := by
          unfold parts at lead ⊢
          split at lead <;> first | rfl | cases lead
        have beginning : Text.join "/" (dropLastSegment (segmentsOf p.text)) <+: p.text := by
          have whole : Text.join "/" (segmentsOf p.text) = p.text := Text.join_split '/' p.text
          rw [← whole]
          exact Text.join_prefix (by rw [whole]; exact dropLastSegment_isPrefix _)
        by_contra starts
        obtain ⟨rest, text⟩ := isAbsolute_iff.mp (by simpa using starts)
        rw [ofParts, lead, segments] at text
        change Text.join "/" (dropLastSegment (segmentsOf p.text)) = _ at text
        rw [text] at beginning
        obtain ⟨more, whole⟩ := beginning
        rw [isAbsolute_iff.mpr ⟨rest ++ more, whole.symm⟩] at absolute
        cases absolute
      · have lead : p.parts.lead = some .here := by simpa using here
        rw [ofParts, lead]
        rfl
    · split at h
      · obtain rfl := Option.some.inj h
        rfl
      · cases h

/-! ## One ancestor for each beginning -/

/-- How an ancestor is written: as the path itself, or as a beginning of it behind a name. -/
def IsCutFrom (p q : Path) : Prop :=
  q = p ∨ q.text <+: p.text ∧ (q.text = ['/'] ∨ q.EndsInName)

/-- **Ancestors up to a directory** that a path leads down from by names: those before it go some
way down, and the directory itself is written as the path begins. -/
theorem exists_ancestor {p : Path} (absolute : p.isAbsolute = true) {pre : List Component}
    {names : List Text} (h : p.components = pre ++ names.map .name) {k : Nat}
    (enough : names.length ≤ k) :
    ∃ before q after, ancestorsUpTo k p = before ++ q :: after ∧
      (∀ b ∈ before, ∃ part : List Text, part ≠ [] ∧ b.components = pre ++ part.map .name) ∧
      q.isAbsolute = true ∧ q.components = pre ∧ p.IsCutFrom q := by
  -- Each step up leaves the last name out.
  induction names using List.reverseRecOn generalizing p k with
  | nil =>
    rw [List.map_nil, List.append_nil] at h
    cases k with
    | zero => exact ⟨[], p, [], rfl, by simp, absolute, h, Or.inl rfl⟩
    | succ k =>
      rw [ancestorsUpTo]
      cases p.parent? with
      | none => exact ⟨[], p, [], rfl, by simp, absolute, h, Or.inl rfl⟩
      | some parent => exact ⟨[], p, _, rfl, by simp, absolute, h, Or.inl rfl⟩
  | append_singleton names n ih =>
    obtain ⟨k, rfl⟩ : ∃ j, k = j + 1 := by
      rw [List.length_append, List.length_singleton] at enough
      exact ⟨k - 1, by omega⟩
    have last : p.components.getLast? = some (.name n) := by
      rw [h, List.map_append, ← List.append_assoc]
      exact List.getLast?_concat
    obtain ⟨parent, up⟩ := exists_parent?_of_name last
    obtain ⟨parent_absolute, parent_components⟩ := parent?_spec absolute up
    have shorter : parent.components = pre ++ names.map .name := by
      rw [parent_components, h, List.map_append, ← List.append_assoc]
      exact List.dropLast_concat
    obtain ⟨text, cut⟩ := parent?_text absolute up
    obtain ⟨before, q, after, eq, deeper, q_absolute, q_components, q_cut⟩ :=
      ih parent_absolute shorter (k := k) (by simpa using enough)
    refine ⟨p :: before, q, after, ?_, ?_, q_absolute, q_components, ?_⟩
    · rw [ancestorsUpTo, up, List.cons_append, ← eq]
    · exact List.forall_mem_cons.mpr ⟨⟨names ++ [n], by simp, h⟩, deeper⟩
    · rcases q_cut with rfl | ⟨beginning, behind⟩
      · exact Or.inr ⟨text, cut⟩
      · exact Or.inr ⟨beginning.trans text, behind⟩

/-- An ancestor other than the path itself has fewer components. -/
theorem length_of_mem_ancestorsUpTo {p q : Path} (absolute : p.isAbsolute = true) {k : Nat}
    (h : q ∈ ancestorsUpTo k p) (apart : q ≠ p) : q.components.length < p.components.length := by
  cases k with
  | zero => exact absurd (List.mem_singleton.mp h) apart
  | succ k =>
    rw [ancestorsUpTo] at h
    cases up : p.parent? with
    | none =>
      rw [up] at h
      exact absurd (List.mem_singleton.mp h) apart
    | some parent =>
      rw [up] at h
      obtain ⟨parent_absolute, components⟩ := parent?_spec absolute up
      have above := (List.mem_cons.mp h).resolve_left apart
      have shorter := (ancestorsUpTo_spec parent_absolute above).2.length_le
      have some_components : 0 < p.components.length := by
        rw [components_of_isAbsolute absolute]
        exact Nat.succ_pos _
      rw [components, List.length_dropLast] at shorter
      omega

/-! ## How long an ancestor is -/

theorem componentsOf_ne_nil {segments : List Text} (some_segments : segments ≠ [])
    (last : ∀ s ∈ segments.getLast?, isSignificant s = true) : componentsOf segments ≠ [] := by
  obtain ⟨before, s, rfl⟩ := (List.eq_nil_or_concat' segments).resolve_left some_segments
  rw [List.getLast?_concat] at last
  obtain ⟨c, stands⟩ := Option.isSome_iff_exists.mp (last s rfl)
  exact List.ne_nil_of_mem (List.mem_filterMap.mpr ⟨s, by simp, stands⟩)

theorem exists_slashed {p : Path} (some_text : p.text ≠ []) :
    ∃ stem, p.slashed = stem ++ ['/'] ∧
      componentsOf (segmentsOf stem) = componentsOf (segmentsOf p.text) := by
  rw [slashed]
  split
  · next ended =>
    obtain ⟨stem, text⟩ := List.getLast?_eq_some_iff.mp (ended.resolve_left some_text)
    refine ⟨stem, text, ?_⟩
    rw [text, componentsOf_segmentsOf_append_slash]
    exact (List.append_nil _).symm
  · exact ⟨p.text, rfl, rfl⟩

theorem text_ne_nil_of_isAbsolute {p : Path} (absolute : p.isAbsolute = true) : p.text ≠ [] := by
  obtain ⟨rest, text⟩ := isAbsolute_iff.mp absolute
  rw [text]
  exact List.cons_ne_nil _ _

theorem byteLength_le_of_isPrefix {s t : Text} (h : s <+: t) : s.byteLength ≤ t.byteLength := by
  obtain ⟨rest, rfl⟩ := h
  rw [Text.byteLength_append]
  exact Nat.le_add_right _ _

/-- **A beginning that is cut off behind a name** is no longer, with a slash behind it, than another
beginning of the path with the same components. -/
theorem byteLength_slashed_le {p base q : Path} (absolute : base.isAbsolute = true)
    (base_text : base.slashed <+: p.text) (q_absolute : q.isAbsolute = true)
    (same : q.Same base) (q_text : q.text <+: p.text) (cut : q.text = ['/'] ∨ q.EndsInName) :
    q.slashed.byteLength ≤ base.slashed.byteLength := by
  obtain ⟨stem, slashed_eq, stem_components⟩ :=
    exists_slashed (text_ne_nil_of_isAbsolute absolute)
  rcases List.prefix_or_prefix_of_prefix q_text base_text with inside | beyond
  · rw [slashed]
    split
    · exact byteLength_le_of_isPrefix inside
    · next open_end =>
      have slash : Text.byteLength ['/'] = 1 := rfl
      rw [slashed_eq, List.prefix_concat_iff] at inside
      rcases inside with ended | shorter
      · rw [ended, List.getLast?_concat] at open_end
        exact absurd (Or.inr rfl) open_end
      · have le := byteLength_le_of_isPrefix shorter
        rw [slashed_eq, Text.byteLength_append, Text.byteLength_append]
        omega
  · -- Whatever follows the slash has no component, so there is nothing.
    obtain ⟨rest, text⟩ := beyond
    rw [slashed_eq, List.append_assoc, List.singleton_append] at text
    have none : componentsOf (segmentsOf rest) = [] := by
      rw [Same, components_of_isAbsolute q_absolute, components_of_isAbsolute absolute, ← text,
        componentsOf_segmentsOf_append_slash, stem_components, List.cons_inj_right] at same
      simpa using same
    have root : q.text = ['/'] := by
      refine cut.resolve_right fun ends => ?_
      have split : segmentsOf q.text = segmentsOf stem ++ segmentsOf rest := by
        rw [← text, segmentsOf, Text.split_append_cons (by simp)]
        rfl
      have some_segments : segmentsOf rest ≠ [] := Text.split_ne_nil _ _
      rw [EndsInName, split, List.getLast?_append_of_ne_nil _ some_segments] at ends
      exact componentsOf_ne_nil some_segments ends none
    rw [slashed_of_getLast (t := []) root, root, slashed_eq, Text.byteLength_append]
    exact Nat.le_add_left _ _

end Path

end MessageDocs
