import MessageDocs.Manifest

/-! # Patterns and longer paths

A pattern is matched against the text of a path. Whatever its form, it excludes a path also when
the names of directories are written in front of it, because it looks for a text anywhere in the
path or at its end, or for a directory at any depth.

* `Manifest.Pattern.excludes_behind`: a pattern that excludes a path behind a directory.
* `Manifest.isExcluded_of_endsAs`: what this means for all patterns of a manifest.
-/

set_option autoImplicit false

namespace MessageDocs

theorem Text.occursIn_iff {part t : Text} : occursIn part t = true ↔ part <:+: t := by
  induction t with
  | nil => rw [occursIn, List.isEmpty_iff, List.infix_nil]
  | cons c rest ih =>
    rw [occursIn, Bool.or_eq_true, ih, List.isPrefixOf_iff_prefix, List.infix_cons_iff]

/-- Whether a path is written as another one is, perhaps behind a directory. -/
def Path.EndsAs (p q : Path) : Prop :=
  p = q ∨ ∃ pre, p.text = pre ++ '/' :: q.text

namespace Manifest

namespace Pattern

variable {path : Text} (pre : Text)

theorem isUnder_iff {dir path : Text} :
    isUnder dir path = true ↔ dir ++ ['/'] <+: path ∨ '/' :: (dir ++ ['/']) <:+: path := by
  rw [isUnder, Bool.or_eq_true, Text.startsWith, List.isPrefixOf_iff_prefix, Text.occursIn_iff]
  rfl

/-- A directory at the start of a path is further inside when another one stands before it. -/
theorem isUnder_behind {dir : Text} (h : isUnder dir path = true) :
    isUnder dir (pre ++ '/' :: path) = true := by
  refine isUnder_iff.mpr (Or.inr ?_)
  rcases isUnder_iff.mp h with ⟨rest, start⟩ | inside
  · exact ⟨pre, rest, by simp [← start]⟩
  · exact inside.trans ((List.suffix_cons '/' path).trans (List.suffix_append pre _)).isInfix

theorem Rule.excludes_behind {rule : Rule} (h : rule.excludes path = true) :
    rule.excludes (pre ++ '/' :: path) = true := by
  have ending : path <:+ pre ++ '/' :: path :=
    (List.suffix_cons '/' path).trans (List.suffix_append pre _)
  cases rule with
  | under dir => exact isUnder_behind pre h
  | endsWith tail =>
    rw [Rule.excludes, Text.endsWith, List.isSuffixOf_iff_suffix] at h ⊢
    exact h.trans ending
  | contains part =>
    rw [Rule.excludes, Text.occursIn_iff] at h ⊢
    exact h.trans ending.isInfix

/-- **A pattern that excludes a path** excludes it also behind a directory. -/
theorem excludes_behind {pattern : Text} (h : excludes pattern path = true) :
    excludes pattern (pre ++ '/' :: path) = true :=
  Rule.excludes_behind pre h

end Pattern

theorem isExcluded_of_endsAs {m : Manifest} {p q : Path} (ends : p.EndsAs q)
    (h : m.isExcluded q = true) : m.isExcluded p = true := by
  rcases ends with rfl | ⟨pre, text⟩
  · exact h
  · obtain ⟨pattern, listed, excludes⟩ := List.any_eq_true.mp h
    rw [isExcluded, text]
    exact List.any_eq_true.mpr ⟨pattern, listed, Pattern.excludes_behind pre excludes⟩

end Manifest

end MessageDocs
