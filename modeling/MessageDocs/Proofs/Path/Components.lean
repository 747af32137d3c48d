import MessageDocs.FileTree
import MessageDocs.Proofs.Path

/-! # Components of paths and of their segments

All that a path means is in its components, and these are read off its segments.

* `Path.componentsOf`: the components of segments, whatever is trimmed or dropped from them.
* `Path.components_eq`: the components of a path are those of its segments, after its lead.
* `Path.componentsOf_join`: joining paths appends their components.
-/

set_option autoImplicit false

namespace MessageDocs

namespace Text

/-- Pieces without a mark are the pieces of what they are joined to by it. -/
theorem split_join {mark : Char} {pieces : List Text} (h : ∀ piece ∈ pieces, mark ∉ piece)
    (some_pieces : pieces ≠ []) : split (· == mark) (join [mark] pieces) = pieces := by
  induction pieces with
  | nil => exact absurd rfl some_pieces
  | cons piece pieces ih =>
    obtain ⟨here, rest⟩ := List.forall_mem_cons.mp h
    cases pieces with
    | nil =>
      rw [join, List.intercalate_singleton]
      exact split_eq_singleton_of_not_mem here
    | cons next pieces =>
      rw [join_cons_cons, List.append_assoc, List.singleton_append,
        split_append_cons (by simp), split_eq_singleton_of_not_mem here, ih rest (by simp)]
      rfl

theorem join_append {separator : Text} {a b : List Text} (some_a : a ≠ []) (some_b : b ≠ []) :
    join separator (a ++ b) = join separator a ++ (separator ++ join separator b) := by
  induction a with
  | nil => exact absurd rfl some_a
  | cons piece a ih =>
    cases a with
    | nil =>
      obtain ⟨next, b, rfl⟩ := List.exists_cons_of_ne_nil some_b
      rw [List.singleton_append, join_cons_cons, List.append_assoc, join, join,
        List.intercalate_singleton]
    | cons next a =>
      rw [List.cons_append, List.cons_append, join_cons_cons, ← List.cons_append,
        ih (List.cons_ne_nil next a), join_cons_cons, List.append_assoc, List.append_assoc,
        List.append_assoc]

end Text

namespace Path

/-! ## Segments -/

/-- The components that segments stand for. -/
def componentsOf (segments : List Text) : List Component :=
  segments.filterMap Component.ofSegment?

theorem componentsOf_append (a b : List Text) :
    componentsOf (a ++ b) = componentsOf a ++ componentsOf b :=
  List.filterMap_append

theorem componentsOf_eq_nil {segments : List Text}
    (h : ∀ s ∈ segments, isSignificant s = false) : componentsOf segments = [] := by
  rw [componentsOf, List.filterMap_eq_nil_iff]
  intro s hs
  have := h s hs
  rwa [isSignificant, Option.isSome_eq_false_iff, Option.isNone_iff_eq_none] at this

theorem componentsOf_dropWhile (segments : List Text) :
    componentsOf (segments.dropWhile (!isSignificant ·)) = componentsOf segments := by
  have skipped : componentsOf (segments.takeWhile (!isSignificant ·)) = [] := by
    apply componentsOf_eq_nil
    intro s hs
    simpa using List.mem_takeWhile_imp hs
  rw [← List.nil_append (componentsOf _), ← skipped, ← componentsOf_append,
    List.takeWhile_append_dropWhile]

theorem componentsOf_reverse (segments : List Text) :
    componentsOf segments.reverse = (componentsOf segments).reverse :=
  List.filterMap_reverse

theorem componentsOf_trimSegmentsEnd (segments : List Text) :
    componentsOf (trimSegmentsEnd segments) = componentsOf segments := by
  rw [trimSegmentsEnd, componentsOf_reverse, componentsOf_dropWhile, componentsOf_reverse,
    List.reverse_reverse]

theorem trimSegmentsEnd_isPrefix (segments : List Text) :
    trimSegmentsEnd segments <+: segments := by
  rw [trimSegmentsEnd, ← List.reverse_suffix, List.reverse_reverse]
  exact List.dropWhile_suffix _

theorem isSignificant_getLast {segments : List Text} {s : Text}
    (h : (trimSegmentsEnd segments).getLast? = some s) : isSignificant s = true := by
  rw [trimSegmentsEnd, List.getLast?_reverse] at h
  have := List.head?_dropWhile_not (!isSignificant ·) segments.reverse
  rw [h] at this
  simpa using this

theorem componentsOf_dropLastSegment (segments : List Text) :
    componentsOf (dropLastSegment segments) = (componentsOf segments).dropLast := by
  rw [dropLastSegment, componentsOf_trimSegmentsEnd, ← componentsOf_trimSegmentsEnd segments]
  rcases List.eq_nil_or_concat' (trimSegmentsEnd segments) with none | ⟨first, last, eq⟩
  · rw [none]
    rfl
  · have significant : isSignificant last = true :=
      isSignificant_getLast (by rw [eq, List.getLast?_concat])
    obtain ⟨c, hc⟩ := Option.isSome_iff_exists.mp significant
    have single : componentsOf [last] = [c] := by simp [componentsOf, hc]
    rw [eq, List.dropLast_concat, componentsOf_append, single, List.dropLast_concat]

theorem componentsOf_dropSegments (n : Nat) (segments : List Text) :
    componentsOf (dropSegments n segments) = (componentsOf segments).drop n := by
  induction n generalizing segments with
  | zero => rfl
  | succ n ih =>
    rw [dropSegments, ih, ← componentsOf_dropWhile segments]
    cases left : segments.dropWhile (!isSignificant ·) with
    | nil =>
      rw [List.tail_nil]
      simp [componentsOf]
    | cons s rest =>
      have significant : isSignificant s = true := by
        have := List.head?_dropWhile_not (!isSignificant ·) segments
        rw [left] at this
        simpa using this
      obtain ⟨c, hc⟩ := Option.isSome_iff_exists.mp significant
      have cons : componentsOf (s :: rest) = c :: componentsOf rest := by
        rw [componentsOf, List.filterMap_cons_some hc]
        rfl
      rw [cons, List.tail_cons, List.drop_succ_cons]

theorem dropSegments_suffix (n : Nat) (segments : List Text) :
    dropSegments n segments <:+ segments := by
  induction n generalizing segments with
  | zero => exact List.suffix_rfl
  | succ n ih =>
    exact (ih _).trans ((List.tail_suffix _).trans (List.dropWhile_suffix _))

/-- What is trimmed from the end of segments is trimmed from the end of more segments. -/
theorem trimSegmentsEnd_subset {a b : List Text} (h : a <:+ b) :
    trimSegmentsEnd a ⊆ trimSegmentsEnd b := by
  obtain ⟨before, rfl⟩ := h
  rw [trimSegmentsEnd, trimSegmentsEnd, List.reverse_append, List.dropWhile_append]
  split
  · next none =>
    rw [List.isEmpty_iff.mp none]
    exact List.nil_subset _
  · rw [List.reverse_append, List.reverse_reverse]
    exact List.subset_append_right _ _

/-! ## Names as segments -/

theorem componentsOf_names {names : List Text} (h : ∀ n ∈ names, IsName n) :
    componentsOf names = names.map .name := by
  rw [componentsOf, ← List.filterMap_eq_map]
  exact List.filterMap_congr fun n hn => (h n hn).1

theorem not_mem_of_isName {n : Text} (h : IsName n) : '/' ∉ n := by
  simpa using h.2.1

theorem isSignificant_of_isName {n : Text} (h : IsName n) : isSignificant n = true := by
  rw [isSignificant, h.1]
  rfl

/-- The components of segments are what they are of the segments of their text. -/
theorem componentsOf_segmentsOf_join {segments : List Text} (h : ∀ s ∈ segments, '/' ∉ s) :
    componentsOf (segmentsOf (Text.join "/" segments)) = componentsOf segments := by
  by_cases none : segments = []
  · rw [none]
    rfl
  · rw [segmentsOf]
    exact congrArg componentsOf (Text.split_join h none)

/-! ## Components of a written path -/

theorem segmentsOf_cons_slash (t : Text) : segmentsOf ('/' :: t) = [] :: segmentsOf t := by
  rw [segmentsOf, Text.split, if_pos (by simp)]
  rfl

theorem componentsOf_cons_nil (segments : List Text) :
    componentsOf ([] :: segments) = componentsOf segments :=
  List.filterMap_cons_none rfl

theorem components_eq (p : Path) :
    p.components = p.parts.lead.toList ++ componentsOf (segmentsOf p.text) := by
  rw [components]
  congr 1
  change componentsOf p.parts.segments = _
  unfold parts
  split
  · next rest text =>
    rw [text, segmentsOf_cons_slash, componentsOf_cons_nil]
  · next text =>
    rw [text]
    rfl
  · next rest text =>
    have dot : segmentsOf ('.' :: '/' :: rest) = ['.'] :: segmentsOf rest :=
      Text.split_append_cons (a := ['.']) (by simp) rest
    rw [text, dot, segmentsOf_cons_slash, componentsOf_cons_nil]
    exact (List.filterMap_cons_none rfl).symm
  · rfl

theorem isAbsolute_iff {p : Path} : p.isAbsolute = true ↔ ∃ rest, p.text = '/' :: rest := by
  rw [isAbsolute, decide_eq_true_eq, List.head?_eq_some_iff]

theorem parts_of_isAbsolute {p : Path} (h : p.isAbsolute = true) :
    p.parts.lead = some .root ∧
      componentsOf p.parts.segments = componentsOf (segmentsOf p.text) := by
  obtain ⟨rest, text⟩ := isAbsolute_iff.mp h
  rw [parts, text, segmentsOf_cons_slash, componentsOf_cons_nil]
  exact ⟨rfl, rfl⟩

theorem components_of_isAbsolute {p : Path} (h : p.isAbsolute = true) :
    p.components = .root :: componentsOf (segmentsOf p.text) := by
  rw [components_eq, (parts_of_isAbsolute h).1]
  rfl

/-- A relative path leads with nothing or with the directory in which it is. -/
theorem lead_of_not_isAbsolute {p : Path} (h : p.isAbsolute = false) :
    p.parts.lead.toList = [] ∨ p.parts.lead.toList = [.here] := by
  unfold parts
  split
  · next rest text =>
    rw [isAbsolute_iff.mpr ⟨rest, text⟩] at h
    cases h
  · exact Or.inr rfl
  · exact Or.inr rfl
  · exact Or.inl rfl

theorem not_mem_of_mem_parts {p : Path} {s : Text} (h : s ∈ p.parts.segments) : '/' ∉ s := by
  unfold parts at h
  split at h
  · exact not_mem_of_mem_segmentsOf h
  · rw [List.mem_singleton.mp h]
    simp
  · exact not_mem_of_mem_segmentsOf h
  · exact not_mem_of_mem_segmentsOf h

/-! ## Joining -/

theorem join_of_not_isAbsolute {p q : Path} (h : q.isAbsolute = false) :
    (p.join q = ⟨p.text ++ q.text⟩ ∧ (p.text = [] ∨ p.text.getLast? = some '/')) ∨
      (p.join q = ⟨p.text ++ '/' :: q.text⟩ ∧ p.text ≠ []) := by
  rw [join, if_neg (by simp [h])]
  by_cases ended : p.text = [] ∨ p.text.getLast? = some '/'
  · rw [if_pos ended]
    exact Or.inl ⟨rfl, ended⟩
  · rw [if_neg ended]
    exact Or.inr ⟨rfl, (not_or.mp ended).1⟩

theorem isAbsolute_join {p q : Path} (h : q.isAbsolute = false) :
    (p.join q).isAbsolute = p.isAbsolute := by
  have relative : q.text.head? ≠ some '/' := by simpa [isAbsolute] using h
  rcases join_of_not_isAbsolute (p := p) h with ⟨eq, -⟩ | ⟨eq, some_text⟩
  · rw [eq]
    cases text : p.text with
    | nil => simpa [isAbsolute, text] using relative
    | cons c rest => simp [isAbsolute, text]
  · obtain ⟨c, rest, text⟩ := List.exists_cons_of_ne_nil some_text
    rw [eq]
    simp [isAbsolute, text]

theorem isAbsolute_join_of_isAbsolute {p : Path} (h : p.isAbsolute = true) (q : Path) :
    (p.join q).isAbsolute = true := by
  cases replaced : q.isAbsolute with
  | true => rwa [join, if_pos replaced]
  | false => exact (isAbsolute_join replaced).trans h

theorem componentsOf_segmentsOf_append_slash (a b : Text) :
    componentsOf (segmentsOf (a ++ '/' :: b)) =
      componentsOf (segmentsOf a) ++ componentsOf (segmentsOf b) := by
  rw [segmentsOf, Text.split_append_cons (by simp), componentsOf_append]
  rfl

/-- **Joining** appends components. -/
theorem componentsOf_join (p : Path) {q : Path} (h : q.isAbsolute = false) :
    componentsOf (segmentsOf (p.join q).text) =
      componentsOf (segmentsOf p.text) ++ componentsOf (segmentsOf q.text) := by
  rcases join_of_not_isAbsolute (p := p) h with ⟨eq, empty | slash⟩ | ⟨eq, -⟩
  · rw [eq, empty]
    rfl
  · obtain ⟨before, text⟩ := List.getLast?_eq_some_iff.mp slash
    rw [eq, text]
    dsimp only
    rw [List.append_assoc, List.singleton_append, componentsOf_segmentsOf_append_slash,
      componentsOf_segmentsOf_append_slash]
    simp [segmentsOf, Text.split, componentsOf, Component.ofSegment?]
  · rw [eq]
    exact componentsOf_segmentsOf_append_slash _ _

theorem components_join {p q : Path} (absolute : p.isAbsolute = true)
    (relative : q.isAbsolute = false) :
    (p.join q).components = p.components ++ componentsOf (segmentsOf q.text) := by
  rw [components_of_isAbsolute absolute,
    components_of_isAbsolute ((isAbsolute_join relative).trans absolute),
    componentsOf_join p relative]
  rfl

end Path

end MessageDocs
