import Mathlib.Algebra.GroupWithZero.Nat
import Mathlib.Data.List.Basic
import Mathlib.Data.List.Induction
import Mathlib.Data.List.Sort
import MessageDocs.NameMap

/-! # Maps built up by insertions

A map that is built up by insertions has the names that were inserted, each with the value that
came last. A sum over its values loses those that were replaced. Since the entries ascend, a map is
given by what is found in it, and so unions are associative.
-/

set_option autoImplicit false

namespace MessageDocs

namespace NameMap

variable {α : Type}

theorem mem_map_fst_insertEntry {name n : Text} {value : α} {entries : List (Text × α)} :
    n ∈ (insertEntry name value entries).map Prod.fst ↔ n = name ∨ n ∈ entries.map Prod.fst := by
  induction entries with
  | nil => simp [insertEntry]
  | cons entry rest ih =>
    unfold insertEntry
    split
    · simp
    · split
      · next same => simp [same]
      · rw [List.map_cons, List.mem_cons, ih, List.map_cons, List.mem_cons, or_left_comm]

theorem mem_insertEntry {name : Text} {value : α} {entries : List (Text × α)} {e : Text × α}
    (h : e ∈ insertEntry name value entries) : e = (name, value) ∨ e ∈ entries := by
  induction entries with
  | nil => exact Or.inl (by simpa [insertEntry] using h)
  | cons entry rest ih =>
    rw [insertEntry] at h
    split at h
    · exact List.mem_cons.mp h
    · split at h
      · exact (List.mem_cons.mp h).imp_right (List.mem_cons_of_mem _)
      · rcases List.mem_cons.mp h with rfl | h
        · exact Or.inr List.mem_cons_self
        · exact (ih h).imp_right (List.mem_cons_of_mem _)

theorem mem_names_insert {m : NameMap α} {name n : Text} {value : α} :
    n ∈ (m.insert name value).names ↔ n = name ∨ n ∈ m.names :=
  mem_map_fst_insertEntry

theorem union_empty (m : NameMap α) : m.union empty = m := rfl

theorem find?_insertEntry (name k : Text) (value : α) (entries : List (Text × α)) :
    ((insertEntry name value entries).find? fun e => e.1 = k).map Prod.snd =
      if k = name then some value else (entries.find? fun e => e.1 = k).map Prod.snd := by
  induction entries with
  | nil =>
    by_cases h : k = name
    · simp [insertEntry, h]
    · simp [insertEntry, h, Ne.symm h]
  | cons entry rest ih =>
    rw [insertEntry]
    split
    · by_cases h : k = name
      · simp [h]
      · simp [List.find?_cons, h, Ne.symm h]
    · split
      · next same =>
        by_cases h : k = name
        · simp [h]
        · have other : ¬entry.1 = k := by rw [← same]; exact Ne.symm h
          simp [h, Ne.symm h, other]
      · next apart =>
        by_cases here : entry.1 = k
        · have other : ¬k = name := by rw [← here]; exact Ne.symm apart
          simp [here, other]
        · rw [List.find?_cons_of_neg (by simpa using here), ih,
            List.find?_cons_of_neg (by simpa using here)]

theorem find?_insert (m : NameMap α) (name k : Text) (value : α) :
    (m.insert name value).find? k = if k = name then some value else m.find? k :=
  find?_insertEntry name k value m.entries

theorem find?_eq_none_iff {m : NameMap α} {name : Text} :
    m.find? name = none ↔ name ∉ m.names := by
  rw [find?, Option.map_eq_none_iff, List.find?_eq_none, names, List.mem_map]
  constructor
  · rintro missing ⟨e, he, same⟩
    exact missing e he (by simpa using same)
  · intro missing e he same
    exact missing ⟨e, he, by simpa using same⟩

/-- The value of a name is the last one that was inserted for it. -/
theorem find?_insertAll (m : NameMap α) (entries : List (Text × α)) (k : Text) :
    (m.insertAll entries).find? k =
      (((entries.filter (·.1 = k)).getLast?.map Prod.snd).or (m.find? k)) := by
  induction entries using List.reverseRecOn with
  | nil => rfl
  | append_singleton entries e ih =>
    have step : m.insertAll (entries ++ [e]) = (m.insertAll entries).insert e.1 e.2 :=
      List.foldl_append
    rw [step, find?_insert, ih, List.filter_append]
    by_cases h : e.1 = k
    · rw [if_pos h.symm, List.filter_cons_of_pos (by simpa using h)]
      simp
    · rw [if_neg (Ne.symm h), List.filter_cons_of_neg (by simpa using h)]
      simp

theorem ascending_names (m : NameMap α) : m.names.Pairwise (· < ·) :=
  List.pairwise_map.mpr m.ascending

theorem nodup_names (m : NameMap α) : m.names.Nodup := by
  apply m.ascending_names.imp
  intro a b before same
  rw [same] at before
  exact List.lt_irrefl b before

/-! ## Unions -/

theorem insertEntry_of_last {name : Text} {value : α} {entries : List (Text × α)}
    (h : ∀ e ∈ entries, e.1 < name) :
    insertEntry name value entries = entries ++ [(name, value)] := by
  induction entries with
  | nil => rfl
  | cons entry rest ih =>
    obtain ⟨here, rest'⟩ := List.forall_mem_cons.mp h
    have notBefore : ¬name < entry.1 := fun before =>
      List.lt_irrefl name (List.lt_trans before here)
    have apart : name ≠ entry.1 := by
      rintro rfl
      exact notBefore here
    rw [insertEntry, if_neg notBefore, if_neg apart, ih rest', List.cons_append]

/-- Entries that ascend are inserted behind each other. -/
theorem entries_insertAll_empty {entries : List (Text × α)}
    (ascending : entries.Pairwise (fun a b => a.1 < b.1)) :
    (empty.insertAll entries).entries = entries := by
  induction entries using List.reverseRecOn with
  | nil => rfl
  | append_singleton entries e ih =>
    obtain ⟨before, -, last⟩ := List.pairwise_append.mp ascending
    have step : (empty.insertAll (entries ++ [e])).entries =
        insertEntry e.1 e.2 (empty.insertAll entries).entries :=
      congrArg NameMap.entries List.foldl_append
    rw [step, ih before, insertEntry_of_last fun a ha => last a ha e (List.mem_singleton_self e)]

theorem empty_union (m : NameMap α) : empty.union m = m :=
  ext (entries_insertAll_empty m.ascending)

theorem find?_union (m n : NameMap α) (k : Text) :
    (m.union n).find? k = (n.find? k).or (m.find? k) := by
  have alone : n.find? k = ((n.entries.filter (·.1 = k)).getLast?.map Prod.snd).or none := by
    have h := find?_insertAll empty n.entries k
    rwa [show empty.insertAll n.entries = n from empty_union n] at h
  rw [union, find?_insertAll, alone, Option.or_none]

theorem mem_entries_iff {m : NameMap α} {e : Text × α} :
    e ∈ m.entries ↔ m.find? e.1 = some e.2 := by
  rw [find?, Option.map_eq_some_iff]
  constructor
  · intro he
    cases found : m.entries.find? (fun a => a.1 = e.1) with
    | none => exact absurd he (fun he => by simpa using List.find?_eq_none.mp found e he)
    | some a =>
      have same : a.1 = e.1 := by simpa using List.find?_some found
      have := List.inj_on_of_nodup_map m.nodup_names (List.mem_of_find?_eq_some found) he same
      exact ⟨a, rfl, congrArg Prod.snd this⟩
  · rintro ⟨a, found, value⟩
    have same : a.1 = e.1 := by simpa using List.find?_some found
    rw [← Prod.ext same value]
    exact List.mem_of_find?_eq_some found

/-- A map is given by what is found under each name. -/
theorem ext_find? {m n : NameMap α} (h : ∀ k, m.find? k = n.find? k) : m = n := by
  have : Std.Antisymm (fun a b : Text × α => a.1 < b.1) :=
    ⟨fun a b ab ba => absurd (List.lt_trans ab ba) (List.lt_irrefl a.1)⟩
  have : Std.Irrefl (fun a b : Text × α => a.1 < b.1) := ⟨fun a => List.lt_irrefl a.1⟩
  apply ext
  apply m.ascending.eq_of_mem_iff n.ascending
  intro e
  rw [mem_entries_iff, mem_entries_iff, h]

theorem union_assoc (l m n : NameMap α) : (l.union m).union n = l.union (m.union n) := by
  apply ext_find?
  intro k
  simp only [find?_union, Option.or_assoc]

/-! ## Sums -/

def total (m : NameMap Nat) : Nat :=
  (m.entries.map Prod.snd).sum

/-- A new value adds to the sum, less the value it replaces. -/
theorem sum_insertEntry {name : Text} {value : Nat} {entries : List (Text × Nat)}
    (ascending : entries.Pairwise (fun a b => a.1 < b.1)) :
    ((insertEntry name value entries).map Prod.snd).sum +
        ((entries.find? fun e => e.1 = name).map Prod.snd).getD 0 =
      (entries.map Prod.snd).sum + value := by
  induction entries with
  | nil => simp [insertEntry]
  | cons entry rest ih =>
    obtain ⟨after, ascending⟩ := List.pairwise_cons.mp ascending
    rw [insertEntry]
    split
    · next before =>
      have missing : (entry :: rest).find? (fun e => e.1 = name) = none := by
        rw [List.find?_eq_none]
        intro e he same
        have same : e.1 = name := by simpa using same
        rcases List.mem_cons.mp he with rfl | he
        · rw [same] at before
          exact List.lt_irrefl name before
        · have later := after e he
          rw [same] at later
          exact List.lt_irrefl name (List.lt_trans before later)
      rw [missing]
      simp only [List.map_cons, List.sum_cons, Option.map_none, Option.getD_none]
      omega
    · split
      · next same =>
        rw [List.find?_cons_of_pos (by simp [same])]
        simp only [List.map_cons, List.sum_cons, Option.map_some, Option.getD_some]
        omega
      · next apart =>
        have ih := ih ascending
        rw [List.find?_cons_of_neg (by simpa using Ne.symm apart)]
        simp only [List.map_cons, List.sum_cons]
        omega

theorem total_insert (m : NameMap Nat) (name : Text) (value : Nat) :
    (m.insert name value).total + (m.find? name).getD 0 = m.total + value :=
  sum_insertEntry m.ascending

/-- All values of a map are counted only when no name has been replaced; then nothing is lost. -/
theorem total_insertAll {entries : List (Text × Nat)} (positive : ∀ e ∈ entries, 0 < e.2)
    {m : NameMap Nat} (held : ∀ e ∈ m.entries, 0 < e.2) :
    (m.insertAll entries).total ≤ m.total + (entries.map Prod.snd).sum ∧
      ((m.insertAll entries).total = m.total + (entries.map Prod.snd).sum ↔
        (entries.map Prod.fst).Nodup ∧ ∀ e ∈ entries, e.1 ∉ m.names) := by
  induction entries generalizing m with
  | nil => simp [insertAll]
  | cons entry rest ih =>
    obtain ⟨here, positive⟩ := List.forall_mem_cons.mp positive
    have held' : ∀ e ∈ (m.insert entry.1 entry.2).entries, 0 < e.2 := by
      intro e he
      rcases mem_insertEntry he with rfl | he
      · exact here
      · exact held e he
    obtain ⟨le, eq_iff⟩ := ih positive held'
    have step : m.insertAll (entry :: rest) = (m.insert entry.1 entry.2).insertAll rest := rfl
    have inserted := total_insert m entry.1 entry.2
    -- What is replaced is zero exactly for a new name.
    have replaced : (m.find? entry.1).getD 0 = 0 ↔ entry.1 ∉ m.names := by
      rw [← find?_eq_none_iff]
      cases found : m.find? entry.1 with
      | none => simp
      | some value =>
        obtain ⟨e, at_name, rfl⟩ := Option.map_eq_some_iff.mp found
        have := held e (List.mem_of_find?_eq_some at_name)
        simp only [Option.getD_some, reduceCtorEq, iff_false]
        omega
    rw [step, List.map_cons, List.sum_cons, List.map_cons, List.nodup_cons,
      List.forall_mem_cons, ← replaced]
    refine ⟨by omega, ?_⟩
    have names_iff : (∀ e ∈ rest, e.1 ∉ (m.insert entry.1 entry.2).names) ↔
        entry.1 ∉ rest.map Prod.fst ∧ ∀ e ∈ rest, e.1 ∉ m.names := by
      simp only [mem_names_insert, not_or, List.mem_map, not_exists, not_and]
      exact forall₂_and
    constructor
    · intro whole
      have none : (m.find? entry.1).getD 0 = 0 := by omega
      obtain ⟨nodup, apart⟩ := eq_iff.mp (by omega)
      obtain ⟨new, apart⟩ := names_iff.mp apart
      exact ⟨⟨new, nodup⟩, none, apart⟩
    · rintro ⟨⟨new, nodup⟩, none, apart⟩
      have rest_eq := eq_iff.mpr ⟨nodup, names_iff.mpr ⟨new, apart⟩⟩
      omega

end NameMap

namespace NameSet

theorem mem_names_foldl_add {names : List Text} {s : NameSet} {n : Text} :
    n ∈ NameMap.names (names.foldl add s) ↔ n ∈ names ∨ n ∈ NameMap.names s := by
  induction names generalizing s with
  | nil => simp
  | cons name names ih =>
    rw [List.foldl_cons, ih, add, NameMap.mem_names_insert, List.mem_cons, or_assoc]
    exact or_left_comm

theorem mem_names_ofList {names : List Text} {n : Text} :
    n ∈ NameMap.names (ofList names) ↔ n ∈ names := by
  rw [ofList, mem_names_foldl_add]
  simp [NameMap.names, NameMap.empty]

end NameSet

end MessageDocs
