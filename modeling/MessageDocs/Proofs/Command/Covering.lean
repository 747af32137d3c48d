import MessageDocs.Proofs.Command.Outermost
import MessageDocs.Proofs.Path.Names
import MessageDocs.Proofs.Sorting

/-! # The sources of a manifest as directories

The sources that a manifest lists stand for directories again. These are some of the directories
that it was made from: each of these lies in exactly one of them, and none of them lies in another.

* `Command.Init.LiesIn`: when one directory lies in another one.
* `Command.Init.mem_listed_iff`: the directories that are listed.
* `Command.Init.sources_cover`: each directory lies in one of them, whatever the order.
-/

set_option autoImplicit false

namespace MessageDocs.Command.Init

open MessageDocs.Path

/-! ## Directories -/

/-- The directory that a path names, by its components. -/
def directoryOf (p : Path) : List Component :=
  (named p).components

/-- A directory is another one or lies below it. All of them lie in `.`, to which they are
relative. -/
def LiesIn (inner outer : List Component) : Prop :=
  outer = [.here] ∨ outer <+: inner

/-- The sources that a manifest lists for some directories, read as directories. -/
def listed (dirs : List Path) : List (List Component) :=
  (minimalDirs dirs).map fun s => directoryOf ⟨s⟩

theorem text_named_ne_nil (p : Path) : (named p).text ≠ [] := by
  rw [named]
  split
  · exact List.cons_ne_nil _ _
  · assumption

theorem named_eq_self {p : Path} (h : p.text ≠ []) : named p = p :=
  if_neg h

theorem directoryOf_ne_nil (p : Path) : directoryOf p ≠ [] :=
  components_ne_nil (text_named_ne_nil p)

theorem directoryOf_sourceOf {p : Path} (h : p.text ≠ []) :
    directoryOf ⟨sourceOf p⟩ = p.components := by
  have some_text : (⟨sourceOf p⟩ : Path).text ≠ [] := List.append_ne_nil_of_left_ne_nil h _
  rw [directoryOf, named_eq_self some_text]
  exact components_append_slash h

theorem liesIn_here_iff {p : Path} : LiesIn [.here] (directoryOf p) ↔ directoryOf p = [.here] := by
  refine ⟨fun h => h.elim id fun inside => ?_, Or.inl⟩
  have length := inside.length_le
  have some_components := List.length_pos_iff.mpr (directoryOf_ne_nil p)
  exact inside.eq_of_length (Nat.le_antisymm length some_components)

/-! ## What is listed -/

theorem exists_of_mem_distinct {dirs : List Path} {q : Path} (h : q ∈ distinct (dirs.map named)) :
    ∃ p ∈ dirs, named p = q :=
  List.mem_map.mp (mem_of_mem_distinct h)

theorem exists_distinct_of_mem {dirs : List Path} {p : Path} (h : p ∈ dirs) :
    ∃ q ∈ distinct (dirs.map named), q.components = directoryOf p :=
  exists_distinct_same (List.mem_map_of_mem h)

/-- Whether the directory itself is among some directories. -/
def HasHere (dirs : List Path) : Prop :=
  ∃ p ∈ dirs, directoryOf p = [.here]

theorem isAmong_here_iff {dirs : List Path} :
    isAmong (distinct (dirs.map named)) ⟨"."⟩ = true ↔ HasHere dirs := by
  rw [isAmong_iff]
  constructor
  · rintro ⟨q, hq, same⟩
    obtain ⟨p, hp, rfl⟩ := exists_of_mem_distinct hq
    exact ⟨p, hp, same⟩
  · rintro ⟨p, hp, here⟩
    obtain ⟨q, hq, same⟩ := exists_distinct_of_mem hp
    exact ⟨q, hq, same.trans here⟩

theorem minimalDirs_of_hasHere {dirs : List Path} (h : HasHere dirs) :
    minimalDirs dirs = [("." : Text)] :=
  minimalDirs_of_isAmong (isAmong_here_iff.mpr h)

section

variable {dirs : List Path} (apart : ¬HasHere dirs)

include apart

theorem isAmong_eq_false : isAmong (distinct (dirs.map named)) ⟨"."⟩ = false :=
  Bool.eq_false_iff.mpr (mt isAmong_here_iff.mp apart)

theorem mem_minimalDirs_iff {s : Text} :
    s ∈ minimalDirs dirs ↔ ∃ q ∈ outermost dirs, sourceOf q = s := by
  rw [(minimalDirs_perm (isAmong_eq_false apart)).mem_iff, List.mem_map]

theorem liesIn_iff {p : Path} (h : p ∈ dirs) {inner : List Component} :
    LiesIn inner (directoryOf p) ↔ directoryOf p <+: inner :=
  or_iff_right fun here => apart ⟨p, h, here⟩

theorem listed_perm : (listed dirs).Perm ((outermost dirs).map Path.components) := by
  refine ((minimalDirs_perm (isAmong_eq_false apart)).map _).trans (List.Perm.of_eq ?_)
  rw [List.map_map]
  refine List.map_congr_left fun q hq => ?_
  obtain ⟨p, -, rfl⟩ := exists_of_mem_distinct (mem_outermost_iff.mp hq).1
  exact directoryOf_sourceOf (text_named_ne_nil p)

theorem mem_listed_of_apart {ds : List Component} :
    ds ∈ listed dirs ↔ ∃ q ∈ outermost dirs, q.components = ds := by
  rw [(listed_perm apart).mem_iff, List.mem_map]

end

theorem listed_of_hasHere {dirs : List Path} (h : HasHere dirs) : listed dirs = [[.here]] := by
  rw [listed, minimalDirs_of_hasHere h]
  rfl

/-- **The directories that are listed** are those that lie in no other one. -/
theorem mem_listed_iff {dirs : List Path} {ds : List Component} :
    ds ∈ listed dirs ↔ (∃ p ∈ dirs, directoryOf p = ds) ∧
      ∀ q ∈ dirs, LiesIn ds (directoryOf q) → directoryOf q = ds := by
  by_cases here : HasHere dirs
  · rw [listed_of_hasHere here, List.mem_singleton]
    obtain ⟨p, hp, itself⟩ := here
    constructor
    · rintro rfl
      exact ⟨⟨p, hp, itself⟩, fun q _ => liesIn_here_iff.mp⟩
    · rintro ⟨-, outer⟩
      exact (outer p hp (Or.inl itself)).symm.trans itself
  · rw [mem_listed_of_apart here]
    constructor
    · rintro ⟨o, ho, rfl⟩
      obtain ⟨among, outer⟩ := mem_outermost_iff.mp ho
      obtain ⟨p, hp, rfl⟩ := exists_of_mem_distinct among
      refine ⟨⟨p, hp, rfl⟩, fun q hq inside => ?_⟩
      obtain ⟨r, hr, same⟩ := exists_distinct_of_mem hq
      rw [liesIn_iff here hq, ← same] at inside
      rw [← same, outer r hr inside]
    · rintro ⟨⟨p, hp, rfl⟩, outer⟩
      obtain ⟨r, hr, same⟩ := exists_distinct_of_mem hp
      refine ⟨r, mem_outermost_iff.mpr ⟨hr, fun q hq inside => ?_⟩, same⟩
      obtain ⟨p', hp', rfl⟩ := exists_of_mem_distinct hq
      rw [same] at inside
      have equal : directoryOf p' = directoryOf p := outer p' hp' (Or.inr inside)
      exact distinct_unique hq hr (equal.trans same.symm)

theorem nodup_listed (dirs : List Path) : (listed dirs).Nodup := by
  by_cases here : HasHere dirs
  · rw [listed_of_hasHere here]
    exact List.nodup_singleton _
  · rw [(listed_perm here).nodup_iff]
    refine List.Nodup.map_on ?_ ((nodup_distinct _).filter _)
    intro p hp q hq same
    exact distinct_unique (mem_outermost_iff.mp hp).1 (mem_outermost_iff.mp hq).1 same

/-- Each directory lies in one that is listed, and in no other one of these. -/
theorem existsUnique_listed {dirs : List Path} {p : Path} (h : p ∈ dirs) :
    ∃! ds, ds ∈ listed dirs ∧ LiesIn (directoryOf p) ds := by
  by_cases here : HasHere dirs
  · rw [listed_of_hasHere here]
    exact ⟨[.here], ⟨List.mem_singleton_self _, Or.inl rfl⟩,
      fun ds hds => List.mem_singleton.mp hds.1⟩
  · have prefix_iff : ∀ {ds}, ds ∈ listed dirs →
        (LiesIn (directoryOf p) ds ↔ ds <+: directoryOf p) := by
      intro ds hds
      obtain ⟨⟨q, hq, rfl⟩, -⟩ := mem_listed_iff.mp hds
      exact liesIn_iff here hq
    obtain ⟨o, ho, contains⟩ := exists_outermost h
    have among : o.components ∈ listed dirs := (mem_listed_of_apart here).mpr ⟨o, ho, rfl⟩
    refine ⟨o.components, ⟨among, Or.inr contains⟩, ?_⟩
    rintro ds ⟨hds, inside⟩
    rw [prefix_iff hds] at inside
    obtain ⟨q, hq, rfl⟩ := (mem_listed_of_apart here).mp hds
    rw [outermost_unique hq ho inside contains]

/-! ## Other orders -/

theorem minimalDirs_ascending (dirs : List Path) : (minimalDirs dirs).Pairwise (· < ·) := by
  rw [minimalDirs]
  split
  · exact List.pairwise_singleton _ _
  · exact NameMap.ascending_names _

section

variable {dirs dirs' : List Path} (same : ∀ p, p ∈ dirs ↔ p ∈ dirs')

include same

theorem mem_listed_congr {ds : List Component} : ds ∈ listed dirs ↔ ds ∈ listed dirs' := by
  simp only [mem_listed_iff, same]

theorem hasHere_congr : HasHere dirs ↔ HasHere dirs' := by
  simp only [HasHere, same]

theorem mem_minimalDirs_of_same (apart : ¬HasHere dirs)
    (alike : ∀ p ∈ dirs, ∀ q ∈ dirs, directoryOf p = directoryOf q → named p = named q) {s : Text}
    (h : s ∈ minimalDirs dirs) : s ∈ minimalDirs dirs' := by
  have apart' : ¬HasHere dirs' := mt (hasHere_congr same).mpr apart
  obtain ⟨o, ho, rfl⟩ := (mem_minimalDirs_iff apart).mp h
  have among := (mem_listed_of_apart apart).mpr ⟨o, ho, rfl⟩
  obtain ⟨o', ho', equal⟩ := (mem_listed_of_apart apart').mp ((mem_listed_congr same).mp among)
  obtain ⟨p, hp, rfl⟩ := exists_of_mem_distinct (mem_outermost_iff.mp ho).1
  obtain ⟨p', hp', rfl⟩ := exists_of_mem_distinct (mem_outermost_iff.mp ho').1
  rw [alike p hp p' ((same p').mpr hp') equal.symm]
  exact (mem_minimalDirs_iff apart').mpr ⟨_, ho', rfl⟩

/-- Where no directory is written in two ways, the sources are the same texts. -/
theorem minimalDirs_congr
    (alike : ∀ p ∈ dirs, ∀ q ∈ dirs, directoryOf p = directoryOf q → named p = named q) :
    minimalDirs dirs = minimalDirs dirs' := by
  by_cases here : HasHere dirs
  · rw [minimalDirs_of_hasHere here, minimalDirs_of_hasHere ((hasHere_congr same).mp here)]
  have here' : ¬HasHere dirs' := mt (hasHere_congr same).mpr here
  have alike' : ∀ p ∈ dirs', ∀ q ∈ dirs', directoryOf p = directoryOf q → named p = named q :=
    fun p hp q hq => alike p ((same p).mpr hp) q ((same q).mpr hq)
  refine eq_of_ascending (minimalDirs_ascending dirs) (minimalDirs_ascending dirs') fun s => ?_
  exact ⟨mem_minimalDirs_of_same same here alike,
    mem_minimalDirs_of_same (fun p => (same p).symm) here' alike'⟩

end

/-- **The sources that are listed** for some directories are directories of these, each of them
once. Each directory lies in exactly one of them, and is one of them unless it lies in another one,
by components and not by its text. Their order and how often they are given make no difference. -/
theorem sources_cover (dirs : List Path) :
    (listed dirs).Nodup ∧
    (∀ p ∈ dirs, ∃! ds, ds ∈ listed dirs ∧ LiesIn (directoryOf p) ds) ∧
    (∀ ds ∈ listed dirs, ∃ p ∈ dirs, directoryOf p = ds) ∧
    (∀ p ∈ dirs, directoryOf p ∈ listed dirs ↔
      ∀ q ∈ dirs, LiesIn (directoryOf p) (directoryOf q) → directoryOf q = directoryOf p) ∧
    ∀ dirs', (∀ p, p ∈ dirs ↔ p ∈ dirs') →
      (listed dirs).Perm (listed dirs') ∧
      ((∀ p ∈ dirs, ∀ q ∈ dirs, directoryOf p = directoryOf q → named p = named q) →
        minimalDirs dirs = minimalDirs dirs') := by
  refine ⟨nodup_listed dirs, fun p => existsUnique_listed, fun ds hds => (mem_listed_iff.mp hds).1,
    fun p hp => ?_, fun dirs' same => ⟨?_, minimalDirs_congr same⟩⟩
  · rw [mem_listed_iff]
    exact and_iff_right ⟨p, hp, rfl⟩
  · rw [List.perm_ext_iff_of_nodup (nodup_listed dirs) (nodup_listed dirs')]
    exact fun _ => mem_listed_congr same

/-- Directories of which two begin with the same text, and one lies in another. -/
theorem messages_cover :
    let dirs : List Path := [⟨"msg_old"⟩, ⟨"msg/versioned"⟩, ⟨"msg"⟩, ⟨"msg"⟩]
    let dirs' : List Path := [⟨"msg"⟩, ⟨"msg_old"⟩, ⟨"msg/versioned"⟩]
    minimalDirs dirs = ["msg/", "msg_old/"] ∧
      (∃! ds, ds ∈ listed dirs ∧ LiesIn (directoryOf ⟨"msg/versioned"⟩) ds) ∧
      minimalDirs dirs = minimalDirs dirs' := by
  intro dirs dirs'
  obtain ⟨-, covered, -, -, orders⟩ := sources_cover dirs
  have same : ∀ p, p ∈ dirs ↔ p ∈ dirs' := by
    intro p
    simp only [dirs, dirs', List.mem_cons, List.not_mem_nil, or_false]
    tauto
  refine ⟨by decide +kernel, covered _ (by decide +kernel), (orders dirs' same).2 ?_⟩
  decide +kernel

end MessageDocs.Command.Init
