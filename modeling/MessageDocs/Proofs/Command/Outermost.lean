import Mathlib.Data.List.Nodup
import MessageDocs.Command.Init
import MessageDocs.Proofs.NameMap
import MessageDocs.Proofs.Path.Remainder

/-! # The outermost of some directories

A manifest lists the outermost directories with schemas. Each directory lies in one of these, and
none of these lies in another.

* `Command.Init.outermost`: the outermost directories, each in its last written form.
* `Command.Init.mem_outermost_iff`: what is among them.
* `Command.Init.exists_outermost`: every directory lies in one of them.
* `Command.Init.minimalDirs_perm`: they are what a manifest lists, each one once.
-/

set_option autoImplicit false

namespace MessageDocs.Command.Init

open MessageDocs.Path

/-! ## Distinct directories -/

theorem isAmong_iff {p : Path} {paths : List Path} :
    isAmong paths p = true ↔ ∃ q ∈ paths, q.Same p := by
  rw [isAmong, List.any_eq_true]
  exact exists_congr fun q => and_congr_right fun _ => decide_eq_true_iff

theorem mem_of_mem_distinct {p : Path} {paths : List Path} (h : p ∈ distinct paths) :
    p ∈ paths := by
  induction paths with
  | nil => cases h
  | cons first rest ih =>
    rw [distinct] at h
    split at h
    · exact List.mem_cons_of_mem _ (ih h)
    · rcases List.mem_cons.mp h with rfl | h
      · exact List.mem_cons_self
      · exact List.mem_cons_of_mem _ (ih h)

theorem exists_distinct_same {p : Path} {paths : List Path} (h : p ∈ paths) :
    ∃ q ∈ distinct paths, q.Same p := by
  induction paths generalizing p with
  | nil => cases h
  | cons first rest ih =>
    rw [distinct]
    split
    · next again =>
      rcases List.mem_cons.mp h with rfl | h
      · obtain ⟨r, hr, same⟩ := isAmong_iff.mp again
        obtain ⟨q, hq, equal⟩ := ih hr
        exact ⟨q, hq, equal.trans same⟩
      · exact ih h
    · rcases List.mem_cons.mp h with rfl | h
      · exact ⟨p, List.mem_cons_self, rfl⟩
      · obtain ⟨q, hq, same⟩ := ih h
        exact ⟨q, List.mem_cons_of_mem _ hq, same⟩

theorem nodup_distinct (paths : List Path) : (distinct paths).Nodup := by
  induction paths with
  | nil => exact List.nodup_nil
  | cons first rest ih =>
    rw [distinct]
    split
    · exact ih
    · next new =>
      refine List.nodup_cons.mpr ⟨fun again => new ?_, ih⟩
      exact isAmong_iff.mpr ⟨first, mem_of_mem_distinct again, rfl⟩

/-- Directories of the same components are listed in one form only. -/
theorem distinct_unique {p q : Path} {paths : List Path} (hp : p ∈ distinct paths)
    (hq : q ∈ distinct paths) (same : p.Same q) : p = q := by
  induction paths with
  | nil => cases hp
  | cons first rest ih =>
    rw [distinct] at hp hq
    split at hp
    · next again =>
      rw [if_pos again] at hq
      exact ih hp hq
    · next new =>
      have apart : ∀ r ∈ distinct rest, ¬r.Same first :=
        fun r hr equal => new (isAmong_iff.mpr ⟨r, mem_of_mem_distinct hr, equal⟩)
      rw [if_neg new] at hq
      rcases List.mem_cons.mp hp with rfl | p_later <;>
        rcases List.mem_cons.mp hq with rfl | q_later
      · rfl
      · exact absurd same.symm (apart q q_later)
      · exact absurd same (apart p p_later)
      · exact ih p_later q_later

/-! ## Outermost directories -/

/-- The outermost of some directories, each in its last written form. -/
def outermost (dirs : List Path) : List Path :=
  (distinct (dirs.map named)).filter (!isInside (distinct (dirs.map named)) ·)

theorem isInside_eq_false_iff {all : List Path} {p : Path} :
    isInside all p = false ↔ ∀ q ∈ all, q.components <+: p.components → q.Same p := by
  rw [isInside, List.any_eq_false]
  refine forall₂_congr fun q _ => ?_
  rw [Bool.and_eq_true, not_and, startsWith_iff, Bool.not_eq_true', decide_eq_false_iff_not]
  exact ⟨fun h inside => by_contra fun apart => h apart inside,
    fun h apart inside => apart (h inside)⟩

/-- **A directory is outermost** when none of the others contains it. -/
theorem mem_outermost_iff {dirs : List Path} {p : Path} :
    p ∈ outermost dirs ↔ p ∈ distinct (dirs.map named) ∧
      ∀ q ∈ distinct (dirs.map named), q.components <+: p.components → q = p := by
  rw [outermost, List.mem_filter, Bool.not_eq_true', isInside_eq_false_iff]
  refine and_congr_right fun hp => forall₂_congr fun q hq => ?_
  exact ⟨fun h inside => distinct_unique hq hp (h inside), fun h inside => h inside ▸ rfl⟩

/-- **Every directory** lies in an outermost one. -/
theorem exists_outermost {dirs : List Path} {p : Path} (h : p ∈ dirs) :
    ∃ q ∈ outermost dirs, q.components <+: (named p).components := by
  obtain ⟨r, hr, same⟩ := exists_distinct_same (List.mem_map_of_mem (f := named) h)
  have above : ∀ n, ∀ r ∈ distinct (dirs.map named), r.components.length = n →
      ∃ q ∈ outermost dirs, q.components <+: r.components := by
    intro n
    -- A directory that is not outermost lies in one of fewer components.
    induction n using Nat.strong_induction_on with
    | _ n ih =>
      intro r hr length
      by_cases outer : r ∈ outermost dirs
      · exact ⟨r, outer, List.prefix_rfl⟩
      · rw [mem_outermost_iff, not_and] at outer
        obtain ⟨q, hq, inside, apart⟩ : ∃ q ∈ distinct (dirs.map named),
            q.components <+: r.components ∧ q ≠ r := by
          simpa using outer hr
        have shorter : q.components.length < n := by
          refine length ▸ lt_of_le_of_ne inside.length_le fun equal => apart ?_
          exact distinct_unique hq hr (inside.eq_of_length equal)
        obtain ⟨o, ho, contains⟩ := ih _ shorter q hq rfl
        exact ⟨o, ho, contains.trans inside⟩
  rw [Same] at same
  rw [← same]
  exact above _ r hr rfl

/-- Two outermost directories around one path are the same. -/
theorem outermost_unique {dirs : List Path} {p q : Path} {components : List Component}
    (hp : p ∈ outermost dirs) (hq : q ∈ outermost dirs) (under_p : p.components <+: components)
    (under_q : q.components <+: components) : p = q := by
  obtain ⟨p_listed, p_outer⟩ := mem_outermost_iff.mp hp
  obtain ⟨q_listed, q_outer⟩ := mem_outermost_iff.mp hq
  rcases List.prefix_or_prefix_of_prefix under_p under_q with inside | inside
  · exact q_outer p p_listed inside
  · exact (p_outer q q_listed inside).symm

/-! ## Sources -/

def sourceOf (p : Path) : Text :=
  p.text ++ "/"

theorem sourceOf_injective : Function.Injective sourceOf :=
  fun _ _ same => congrArg Path.mk (List.append_cancel_right same)

/-- **A manifest lists** the outermost directories, each of them once. -/
theorem minimalDirs_perm {dirs : List Path}
    (below : isAmong (distinct (dirs.map named)) ⟨"."⟩ = false) :
    (minimalDirs dirs).Perm ((outermost dirs).map sourceOf) := by
  have listed : minimalDirs dirs = (NameSet.ofList ((outermost dirs).map sourceOf)).names := by
    rw [minimalDirs, below]
    rfl
  have names_once := NameMap.nodup_names (NameSet.ofList ((outermost dirs).map sourceOf))
  have sources_once : ((outermost dirs).map sourceOf).Nodup :=
    List.Nodup.map sourceOf_injective ((nodup_distinct _).filter _)
  rw [listed, List.perm_ext_iff_of_nodup names_once sources_once]
  exact fun _ => NameSet.mem_names_ofList

theorem isAmong_here {dirs : List Path} {p : Path} (h : p ∈ dirs) (here : p.text = []) :
    isAmong (distinct (dirs.map named)) ⟨"."⟩ = true := by
  have listed : (⟨"."⟩ : Path) ∈ dirs.map named :=
    List.mem_map.mpr ⟨p, h, by rw [named, if_pos here]⟩
  exact isAmong_iff.mpr (exists_distinct_same listed)

/-- Where the directory itself is among the directories, it is the only source. -/
theorem minimalDirs_of_isAmong {dirs : List Path}
    (here : isAmong (distinct (dirs.map named)) ⟨"."⟩ = true) :
    minimalDirs dirs = [("." : Text)] := by
  rw [minimalDirs, if_pos here]

/-- The directory itself is a source only where it is the only one. -/
theorem all_here_iff {dirs : List Path} :
    (minimalDirs dirs).all (· = ['.']) = true ↔
      minimalDirs dirs = [] ∨ minimalDirs dirs = [("." : Text)] := by
  constructor
  · intro all
    by_cases here : isAmong (distinct (dirs.map named)) ⟨"."⟩ = true
    · exact Or.inr (minimalDirs_of_isAmong here)
    · left
      rw [List.eq_nil_iff_forall_not_mem]
      intro s hs
      obtain ⟨p, -, rfl⟩ :=
        List.mem_map.mp ((minimalDirs_perm (Bool.eq_false_iff.mpr here)).mem_iff.mp hs)
      have dot : sourceOf p = ['.'] := of_decide_eq_true (List.all_eq_true.mp all _ hs)
      have last := congrArg List.getLast? dot
      rw [sourceOf, show ("/" : Text) = ['/'] from rfl, List.getLast?_concat] at last
      cases last
  · rintro (none | one)
    · rw [none]
      rfl
    · rw [one]
      rfl

end MessageDocs.Command.Init
