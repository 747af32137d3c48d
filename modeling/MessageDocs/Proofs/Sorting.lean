import Mathlib.Data.List.Nodup
import Mathlib.Data.List.Sort
import MessageDocs.Sorting

/-! # Sorting is insertion sort

Entries are put into order by the insertion sort of the library, which compares them by their keys.
So none is dropped or repeated, what comes out ascends, and entries of one key keep their order.

* `sortedBy_eq`: sorting as insertion sort.
* `sortedBy_perm`, `sortedBy_ascending`, `filter_sortedBy`: what follows from that.
* `eq_of_ascending`: lists of the same entries that ascend strictly.
-/

set_option autoImplicit false

namespace MessageDocs

section

variable {α β : Type} [LT β] [DecidableLT β]

theorem insertBy_eq (key : α → β) :
    insertBy key = List.orderedInsert fun a b => ¬key b < key a := by
  funext entry entries
  induction entries with
  | nil => rfl
  | cons first rest ih => rw [insertBy, List.orderedInsert_cons, ih, ite_not]

/-- **Sorting** is insertion sort by the keys. -/
theorem sortedBy_eq (key : α → β) (entries : List α) :
    sortedBy key entries = entries.insertionSort fun a b => ¬key b < key a := by
  rw [sortedBy, insertBy_eq, List.insertionSort]

theorem sortedBy_perm (key : α → β) (entries : List α) :
    (sortedBy key entries).Perm entries := by
  rw [sortedBy_eq]
  exact List.perm_insertionSort _ entries

end

/-! ## Order -/

section Order

variable {α β : Type} [LE β] [LT β] [DecidableLT β] [Std.IsLinearOrder β] [Std.LawfulOrderLT β]

/-- **What has been sorted** ascends. -/
theorem sortedBy_ascending (key : α → β) (entries : List α) :
    (sortedBy key entries).Pairwise (key · ≤ key ·) := by
  have total : Std.Total fun a b : α => ¬key b < key a := by
    refine ⟨fun a b => ?_⟩
    rw [Std.not_lt, Std.not_lt]
    exact Std.le_total
  have trans : IsTrans α fun a b => ¬key b < key a := by
    refine ⟨fun a b c => ?_⟩
    rw [Std.not_lt, Std.not_lt, Std.not_lt]
    exact Std.le_trans
  rw [sortedBy_eq]
  exact (List.pairwise_insertionSort _ entries).imp Std.not_lt.mp

/-- Entries none of which is there twice are sorted into a strictly ascending list. -/
theorem sortedBy_strictly_ascending {entries : List β} (once : entries.Nodup) :
    (sortedBy id entries).Pairwise (· < ·) := by
  have nodup := (sortedBy_perm id entries).nodup_iff.mpr once
  exact (sortedBy_ascending id entries).imp₂ (fun _ _ le apart => Std.lt_of_le_of_ne le apart) nodup

end Order

/-! ## Entries of one key -/

section Stability

variable {α β : Type} [LT β] [DecidableLT β] [Std.Irrefl fun a b : β => a < b] [DecidableEq β]

/-- Entries of one key keep the order they had: they are in order already, so that they are a
sublist of what comes out, and nothing else there has their key. -/
theorem filter_sortedBy (key : α → β) (entries : List α) (k : β) :
    (sortedBy key entries).filter (key · = k) = entries.filter (key · = k) := by
  have ordered : (entries.filter (key · = k)).Pairwise fun a b => ¬key b < key a := by
    refine List.pairwise_of_forall_mem_list fun a ha b hb => ?_
    have here : key a = k := of_decide_eq_true (List.mem_filter.mp ha).2
    have there : key b = k := of_decide_eq_true (List.mem_filter.mp hb).2
    rw [here, there]
    exact Std.lt_irrefl
  have inside : (entries.filter (key · = k)).Sublist (sortedBy key entries) := by
    rw [sortedBy_eq]
    exact List.sublist_insertionSort ordered List.filter_sublist
  have kept := inside.filter (key · = k)
  rw [List.filter_filter] at kept
  simp only [Bool.and_self] at kept
  exact (kept.eq_of_length ((sortedBy_perm key entries).filter _).length_eq.symm).symm

end Stability

/-! ## Strictly ascending lists -/

section Strict

variable {β : Type} [LT β] [Std.Asymm fun a b : β => a < b] {l l' : List β}

theorem nodup_of_ascending (h : l.Pairwise (· < ·)) : l.Nodup := by
  apply h.imp
  rintro a b less rfl
  exact Std.Asymm.asymm a a less less

/-- Strictly ascending lists of the same entries are equal. -/
theorem eq_of_ascending (h : l.Pairwise (· < ·)) (h' : l'.Pairwise (· < ·))
    (same : ∀ entry, entry ∈ l ↔ entry ∈ l') : l = l' := by
  have perm : l.Perm l' :=
    (List.perm_ext_iff_of_nodup (nodup_of_ascending h) (nodup_of_ascending h')).mpr same
  refine List.Perm.eq_of_pairwise ?_ h h' perm
  intro a b _ _ less greater
  exact absurd greater (Std.Asymm.asymm a b less)

end Strict

end MessageDocs
