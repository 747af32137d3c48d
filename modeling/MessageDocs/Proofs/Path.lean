import MessageDocs.Message
import MessageDocs.Proofs.Text.Split

/-! # Names in paths

The names that a path goes through are pieces between slashes, so no slash is in them, nor in the
name that a schema's path gives to its message.
-/

set_option autoImplicit false

namespace MessageDocs

namespace Path

theorem name_of_ofSegment? {segment n : Text}
    (h : Component.ofSegment? segment = some (.name n)) : n = segment := by
  unfold Component.ofSegment? at h
  split at h
  · cases h
  · split at h
    · cases h
    · cases h
      rfl

theorem up_or_name_of_ofSegment? {segment : Text} {c : Component}
    (h : Component.ofSegment? segment = some c) : c = .up ∨ ∃ n, c = .name n := by
  unfold Component.ofSegment? at h
  split at h
  · cases h
  · split at h
    · exact Or.inl (Option.some.inj h).symm
    · exact Or.inr ⟨segment, (Option.some.inj h).symm⟩

theorem not_mem_of_mem_segmentsOf {t segment : Text} (h : segment ∈ segmentsOf t) :
    '/' ∉ segment :=
  Text.not_mem_of_mem_split h

theorem not_mem_of_mem_components {p : Path} {n : Text} (h : .name n ∈ p.components) :
    '/' ∉ n := by
  have segments : ∀ segment ∈ p.parts.segments, '/' ∉ segment := by
    intro segment hs
    unfold parts at hs
    split at hs
    · exact not_mem_of_mem_segmentsOf hs
    · rw [List.mem_singleton.mp hs]
      simp
    · exact not_mem_of_mem_segmentsOf hs
    · exact not_mem_of_mem_segmentsOf hs
  have lead : .name n ∉ p.parts.lead.toList := by
    unfold parts
    split <;> simp
  rcases List.mem_append.mp h with h | h
  · exact absurd h lead
  · obtain ⟨segment, hs, named⟩ := List.mem_filterMap.mp h
    rw [name_of_ofSegment? named]
    exact segments segment hs

theorem cutExtension_subset (name : Text) : (cutExtension name).1 ⊆ name := by
  unfold cutExtension
  split
  · next tail c stem cut =>
    obtain ⟨-, reverse_eq⟩ := Text.cutAt_eq_some_iff.mp cut
    intro d hd
    rw [← List.mem_reverse, reverse_eq]
    exact List.mem_append_right _ (List.mem_cons_of_mem _ (List.mem_reverse.mp hd))
  · exact List.Subset.refl name

/-- The extension of a name follows its last dot, unless that is its first character. -/
theorem cutExtension_snd_eq_some_iff {name extension : Text} :
    (cutExtension name).2 = some extension ↔
      '.' ∉ extension ∧ ∃ stem, stem ≠ [] ∧ name = stem ++ '.' :: extension := by
  constructor
  · intro h
    unfold cutExtension at h
    split at h
    · next tail c stem cut =>
      obtain ⟨last, reverse_eq⟩ := Text.cutAt_eq_some_iff.mp cut
      cases h
      refine ⟨by simpa using last, (c :: stem).reverse, by simp, ?_⟩
      rw [← List.reverse_reverse name, reverse_eq]
      simp
    · cases h
  · rintro ⟨last, stem, some_stem, rfl⟩
    have cut : Text.cutAt '.' (stem ++ '.' :: extension).reverse =
        some (extension.reverse, stem.reverse) :=
      Text.cutAt_eq_some_iff.mpr ⟨by simpa using last, by simp⟩
    obtain ⟨c, rest, eq⟩ := List.exists_cons_of_ne_nil (List.reverse_ne_nil_iff.mpr some_stem)
    rw [cutExtension, cut, eq]
    simp

end Path

theorem Message.not_mem_nameOfPath (p : Path) : '/' ∉ Message.nameOfPath p := by
  unfold Message.nameOfPath Path.fileStem?
  cases named : p.fileName? with
  | none => simp
  | some n =>
    intro slash
    have inName : '/' ∈ n := Path.cutExtension_subset n slash
    unfold Path.fileName? at named
    split at named
    · next n' last =>
      cases named
      exact Path.not_mem_of_mem_components (List.mem_of_getLast? last) inName
    · cases named

end MessageDocs
