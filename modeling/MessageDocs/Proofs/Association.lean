import Mathlib.Data.List.Induction
import Mathlib.Data.List.Infix
import Mathlib.Data.List.Nodup
import MessageDocs.Association
import MessageDocs.Proofs.Text.Split

/-! # What the association pass computes

The pass moves constants one at a time; this module says where they all end up.

* `Association.associate_eq`: under any rule, an enumeration's values are the constants it owns, in
  their order, and the loose ones are those without an owner.
* `Association.ownerAmong_eq_some_iff`: under the two rules of the program the owner is the one
  claimant with the longest name, since two names that begin the same constant differ in length.
-/

set_option autoImplicit false

namespace MessageDocs

/-! ## Lengths of names -/

namespace Text

/-- A proper prefix has fewer bytes. -/
theorem byteLength_lt_of_prefix {s t : Text} (h : s <+: t) (apart : s ≠ t) :
    s.byteLength < t.byteLength := by
  obtain ⟨rest, rfl⟩ := h
  have nonempty : rest ≠ [] := by
    intro empty
    rw [empty, List.append_nil] at apart
    exact apart rfl
  have := byteLength_pos nonempty
  rw [byteLength_append]
  omega

/-- Two prefixes of one text that have equally many bytes are the same. -/
theorem eq_of_prefix_of_byteLength_eq {s t whole : Text} (hs : s <+: whole) (ht : t <+: whole)
    (h : s.byteLength = t.byteLength) : s = t := by
  by_contra apart
  rcases List.prefix_or_prefix_of_prefix hs ht with le | le
  · have := byteLength_lt_of_prefix le apart
    omega
  · have := byteLength_lt_of_prefix le (Ne.symm apart)
    omega

end Text

/-- Under both rules a claimed constant's name begins with the name of the enumeration. -/
theorem Matching.prefix_of_claims {m : Matching} {enum constant : Text}
    (h : m.claims enum constant = true) : enum <+: constant := by
  cases m with
  | byPrefix => exact List.isPrefixOf_iff_prefix.mp h
  | delimited => exact (List.prefix_append _ _).trans (List.isPrefixOf_iff_prefix.mp h)

namespace Association

/-! ## The longest name -/

theorem longest?_eq_none_iff {names : List Text} : longest? names = none ↔ names = [] := by
  cases names with
  | nil => simp [longest?]
  | cons name rest =>
    simp only [longest?, reduceCtorEq, iff_false]
    cases longest? rest with
    | none => simp
    | some other =>
      dsimp only
      split <;> simp

theorem longest?_spec {names : List Text} {name : Text} (h : longest? names = some name) :
    name ∈ names ∧ ∀ other ∈ names, other.byteLength ≤ name.byteLength := by
  induction names generalizing name with
  | nil => cases h
  | cons first rest ih =>
    rw [longest?] at h
    cases hr : longest? rest with
    | none =>
      rw [hr] at h
      cases h
      rw [longest?_eq_none_iff.mp hr]
      simp
    | some last =>
      obtain ⟨listed, most⟩ := ih hr
      rw [hr] at h
      dsimp only at h
      split at h
      · next le =>
        cases h
        exact ⟨List.mem_cons_of_mem _ listed, by simpa using ⟨le, most⟩⟩
      · next lt =>
        cases h
        refine ⟨List.mem_cons_self, ?_⟩
        intro other ho
        rcases List.mem_cons.mp ho with rfl | ho
        · exact Nat.le_refl _
        · have := most other ho
          omega

/-! ## Owners -/

/-- The owner of a constant among enumerations of the given names. -/
def ownerAmong (claims : Text → Text → Bool) (names : List Text) (constant : Text) : Option Text :=
  longest? (names.filter (claims · constant))

theorem ownerAmong_eq_none_iff {claims : Text → Text → Bool} {names : List Text} {constant : Text} :
    ownerAmong claims names constant = none ↔ ∀ name ∈ names, claims name constant = false := by
  rw [ownerAmong, longest?_eq_none_iff, List.filter_eq_nil_iff]
  simp

/-- The owner claims the constant, and every other claimant has a shorter name. -/
theorem ownerAmong_eq_some_iff {m : Matching} {names : List Text} {constant name : Text} :
    ownerAmong m.claims names constant = some name ↔
      name ∈ names ∧ m.claims name constant = true ∧
        ∀ other ∈ names, m.claims other constant = true →
          other = name ∨ other.byteLength < name.byteLength := by
  -- Names of equal length that begin the same constant are equal.
  have apart : ∀ a b : Text, m.claims a constant = true → m.claims b constant = true →
      a.byteLength = b.byteLength → a = b := fun a b ha hb =>
    Text.eq_of_prefix_of_byteLength_eq (Matching.prefix_of_claims ha) (Matching.prefix_of_claims hb)
  constructor
  · intro h
    obtain ⟨listed, most⟩ := longest?_spec h
    obtain ⟨inNames, claimed⟩ := List.mem_filter.mp listed
    refine ⟨inNames, claimed, ?_⟩
    intro other ho hc
    have le := most other (List.mem_filter.mpr ⟨ho, hc⟩)
    rcases Nat.lt_or_eq_of_le le with lt | eq
    · exact Or.inr lt
    · exact Or.inl (apart other name hc claimed eq)
  · rintro ⟨listed, claimed, most⟩
    cases ho : ownerAmong m.claims names constant with
    | none =>
      rw [ownerAmong_eq_none_iff.mp ho name listed] at claimed
      cases claimed
    | some owner =>
      obtain ⟨ownerListed, ownerMost⟩ := longest?_spec ho
      obtain ⟨inNames, ownerClaims⟩ := List.mem_filter.mp ownerListed
      rcases most owner inNames ownerClaims with same | lt
      · rw [same]
      · have := ownerMost name (List.mem_filter.mpr ⟨listed, claimed⟩)
        omega

/-! ## The pass -/

/-- The constants that the enumeration of a name owns, in their order. -/
def valuesOf (claims : Text → Text → Bool) (names : List Text) (constants : List Constant)
    (name : Text) : List Constant :=
  constants.filter fun c => ownerAmong claims names c.name = some name

/-- The enumerations of some names with the constants they own. -/
def owners (claims : Text → Text → Bool) (names : List Text) (constants : List Constant) :
    List Enumeration :=
  names.map fun name => { name := name, values := valuesOf claims names constants name }

/-- The constants that no enumeration claims. -/
def looseOf (claims : Text → Text → Bool) (names : List Text) (constants : List Constant) :
    List Constant :=
  constants.filter fun c => ownerAmong claims names c.name = none

theorem map_name_owners (claims : Text → Text → Bool) (names : List Text)
    (constants : List Constant) :
    (owners claims names constants).map Enumeration.name = names := by
  rw [owners, List.map_map]
  exact List.map_id names

theorem put_eq_append {α : Type} {nameOf : α → Text} {entry : α} {values : List α}
    (h : nameOf entry ∉ values.map nameOf) :
    Roster.put nameOf entry values = values ++ [entry] := by
  induction values with
  | nil => rfl
  | cons first rest ih =>
    rw [List.map_cons, List.mem_cons, not_or] at h
    rw [Roster.put, if_neg (Ne.symm h.1), ih h.2, List.cons_append]

/-- One more constant is appended to the values of its owner, or to the loose constants. -/
theorem place_owners {claims : Text → Text → Bool} {names : List Text} {constants : List Constant}
    {c : Constant} (h : c.name ∉ constants.map Constant.name) :
    Shares.place claims ⟨owners claims names constants, looseOf claims names constants⟩ c =
      ⟨owners claims names (constants ++ [c]), looseOf claims names (constants ++ [c])⟩ := by
  have owner_eq : owner? claims (owners claims names constants) c.name =
      ownerAmong claims names c.name := by
    rw [owner?, map_name_owners, ownerAmong]
  rw [Shares.place]
  dsimp only
  rw [owner_eq]
  cases ho : ownerAmong claims names c.name with
  | none =>
    have values_eq : ∀ name, valuesOf claims names (constants ++ [c]) name =
        valuesOf claims names constants name := by
      intro name
      simp [valuesOf, List.filter_append, ho]
    simp [owners, looseOf, values_eq, List.filter_append, ho]
  | some owner =>
    have loose_eq : looseOf claims names (constants ++ [c]) = looseOf claims names constants := by
      simp [looseOf, List.filter_append, ho]
    rw [loose_eq]
    dsimp only
    rw [receive, owners, owners, List.map_map]
    congr 1
    apply List.map_congr_left
    intro name _
    simp only [Function.comp_apply]
    split
    · next same =>
      have new : c.name ∉ (valuesOf claims names constants name).map Constant.name := by
        intro listed
        obtain ⟨c', hc', same'⟩ := List.mem_map.mp listed
        exact h (List.mem_map.mpr ⟨c', List.mem_of_mem_filter hc', same'⟩)
      rw [put_eq_append new]
      simp [valuesOf, List.filter_append, ho, same]
    · next other =>
      have apart : owner ≠ name := Ne.symm other
      simp [valuesOf, List.filter_append, ho, apart]

/-- **Where constants of different names end up**: with their owners, or loose without one. -/
theorem associate_eq {claims : Text → Text → Bool} {names : List Text} {constants : List Constant}
    (h : (constants.map Constant.name).Nodup) :
    associate claims (names.map fun name => { name := name }) constants =
      ⟨owners claims names constants, looseOf claims names constants⟩ := by
  induction constants using List.reverseRecOn with
  | nil => rfl
  | append_singleton constants c ih =>
    rw [List.map_append, List.map_singleton, List.nodup_append] at h
    obtain ⟨nodup, -, apart⟩ := h
    have new : c.name ∉ constants.map Constant.name := fun listed =>
      apart c.name listed c.name (List.mem_singleton.mpr rfl) rfl
    rw [associate, List.foldl_append]
    change Shares.place claims (associate claims _ constants) c = _
    rw [ih nodup, place_owners new]

/-! ## Conservation -/

theorem mem_names_of_ownerAmong {claims : Text → Text → Bool} {names : List Text}
    {constant owner : Text} (h : ownerAmong claims names constant = some owner) : owner ∈ names :=
  (List.mem_filter.mp (longest?_spec h).1).1

/-- The constants sorted into those of one owner and those of some others. -/
theorem filter_append_filter_perm {owner : Constant → Option Text} {name : Text}
    {names : List Text} (new : name ∉ names) (constants : List Constant) :
    (constants.filter (fun c => owner c = some name) ++
        constants.filter (fun c => ∃ n ∈ names, owner c = some n)).Perm
      (constants.filter fun c => ∃ n ∈ name :: names, owner c = some n) := by
  have split := List.filter_append_perm (fun c => decide (owner c = some name))
    (constants.filter fun c => ∃ n ∈ name :: names, owner c = some n)
  rw [List.filter_filter, List.filter_filter] at split
  convert split using 2
  · apply List.filter_congr
    intro c _
    simp +contextual
  · apply List.filter_congr
    intro c _
    cases owner c with
    | none => simp
    | some n =>
      by_cases h : n = name
      · subst h
        simp [new]
      · simp [h]

theorem flatten_filter_perm {owner : Constant → Option Text} {names : List Text}
    (nodup : names.Nodup) (constants : List Constant) :
    (names.map fun name => constants.filter fun c => owner c = some name).flatten.Perm
      (constants.filter fun c => ∃ n ∈ names, owner c = some n) := by
  induction names with
  | nil => simp
  | cons name names ih =>
    obtain ⟨new, nodup⟩ := List.nodup_cons.mp nodup
    rw [List.map_cons, List.flatten_cons]
    exact ((ih nodup).append_left _).trans (filter_append_filter_perm new constants)

/-- Every constant is in exactly one place: with its owner, or loose. -/
theorem owners_append_loose_perm {claims : Text → Text → Bool} {names : List Text}
    (nodup : names.Nodup) (constants : List Constant) :
    (((owners claims names constants).map Enumeration.values).flatten ++
      looseOf claims names constants).Perm constants := by
  have owned := @flatten_filter_perm (fun c => ownerAmong claims names c.name) names nodup constants
  rw [owners, List.map_map]
  refine (owned.append_right _).trans ?_
  convert List.filter_append_perm
    (fun c => decide (∃ n ∈ names, ownerAmong claims names c.name = some n)) constants using 2
  apply List.filter_congr
  intro c _
  cases h : ownerAmong claims names c.name with
  | none => simp
  | some owner => simp [mem_names_of_ownerAmong h]

/-! ## Constants listed by their place -/

theorem filter_filter_owner {owner : Constant → Option Text} (a b : Option Text)
    (constants : List Constant) :
    (constants.filter fun c => owner c = a).filter (fun c => owner c = b) =
      if a = b then constants.filter fun c => owner c = b else [] := by
  rw [List.filter_filter]
  by_cases same : a = b
  · rw [if_pos same, same]
    simp
  · rw [if_neg same, List.filter_eq_nil_iff]
    intro c _
    simp only [Bool.and_eq_true, decide_eq_true_eq]
    rintro ⟨hb, ha⟩
    exact same (ha.symm.trans hb)

theorem filter_flatten_owner {owner : Constant → Option Text} {names : List Text}
    (nodup : names.Nodup) (constants : List Constant) (place : Option Text) :
    (names.map fun name => constants.filter fun c => owner c = some name).flatten.filter
        (fun c => owner c = place) =
      if ∃ name ∈ names, some name = place then constants.filter fun c => owner c = place
      else [] := by
  induction names with
  | nil => simp
  | cons name names ih =>
    obtain ⟨new, nodup⟩ := List.nodup_cons.mp nodup
    rw [List.map_cons, List.flatten_cons, List.filter_append, filter_filter_owner, ih nodup]
    by_cases here : some name = place
    · have others : ¬∃ n ∈ names, some n = place := by
        rintro ⟨n, hn, rfl⟩
        cases here
        exact new hn
      rw [if_pos here, if_neg others, if_pos ⟨name, List.mem_cons_self, here⟩, List.append_nil]
    · rw [if_neg here, List.nil_append]
      simp [here]

theorem valuesOf_listed {claims : Text → Text → Bool} {names : List Text} (nodup : names.Nodup)
    (constants : List Constant) {name : Text} (listed : name ∈ names) :
    valuesOf claims names (((owners claims names constants).map Enumeration.values).flatten ++
      looseOf claims names constants) name = valuesOf claims names constants name := by
  have owned := @filter_flatten_owner (fun c => ownerAmong claims names c.name) names nodup
    constants (some name)
  rw [if_pos ⟨name, listed, rfl⟩] at owned
  have loose := @filter_filter_owner (fun c => ownerAmong claims names c.name) none (some name)
    constants
  rw [if_neg (by simp)] at loose
  rw [valuesOf, List.filter_append, owners, List.map_map]
  exact (congrArg₂ (· ++ ·) owned loose).trans (List.append_nil _)

/-- The constants with their owners first, then the loose ones, are shared out as before. -/
theorem owners_listed {claims : Text → Text → Bool} {names : List Text} (nodup : names.Nodup)
    (constants : List Constant) :
    owners claims names (((owners claims names constants).map Enumeration.values).flatten ++
      looseOf claims names constants) = owners claims names constants := by
  rw [owners]
  apply List.map_congr_left
  intro name listed
  rw [valuesOf_listed nodup constants listed]

theorem looseOf_listed {claims : Text → Text → Bool} {names : List Text} (nodup : names.Nodup)
    (constants : List Constant) :
    looseOf claims names (((owners claims names constants).map Enumeration.values).flatten ++
      looseOf claims names constants) = looseOf claims names constants := by
  have owned := @filter_flatten_owner (fun c => ownerAmong claims names c.name) names nodup
    constants none
  rw [if_neg (by simp)] at owned
  have loose := @filter_filter_owner (fun c => ownerAmong claims names c.name) none none constants
  rw [if_pos rfl] at loose
  rw [looseOf, List.filter_append, owners, List.map_map]
  exact (congrArg₂ (· ++ ·) owned loose).trans (List.nil_append _)

end Association

end MessageDocs
