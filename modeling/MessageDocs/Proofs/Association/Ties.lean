import MessageDocs.Proofs.Association

/-! # Names of equal length that claim one constant

Two names that begin the same constant differ in length, so the rules of the program never leave a
choice. Under another rule several longest names may claim a constant, and then the order in which
the enumerations were declared decides.

* `Association.ownerAmong_eq_some_iff_isLatest`: the owner is the longest claimant that was
  declared last.
* `Association.latest_longest_receives`: where every constant ends up, under any rule.
-/

set_option autoImplicit false

namespace MessageDocs.Association

variable {claims : Text → Text → Bool} {names : List Text} {constant name : Text}

/-! ## Order of declaration -/

/-- Whether `a` stands before `b` among the declared names. -/
def IsBefore (names : List Text) (a b : Text) : Prop :=
  [a, b].Sublist names

theorem isBefore_cons_of_mem {b : Text} (a : Text) (h : b ∈ names) : IsBefore (a :: names) a b :=
  List.cons_sublist_cons.mpr (List.singleton_sublist.mpr h)

/-- Of two names that are declared once each, not both stand before the other. -/
theorem IsBefore.not_after {a b : Text} (declared : names.Nodup) (h : IsBefore names a b) :
    ¬IsBefore names b a := by
  intro after
  induction names with
  | nil => cases h
  | cons first rest ih =>
    obtain ⟨new, nodup⟩ := List.nodup_cons.mp declared
    -- a name in second place stands in the rest, so it is not the first
    cases h with
    | cons _ h =>
      cases after with
      | cons _ after => exact ih nodup h after
      | cons_cons _ after => exact new (h.subset (by simp))
    | cons_cons _ h =>
      cases after with
      | cons _ after => exact new (after.subset (by simp))
      | cons_cons _ _ => exact new (List.singleton_sublist.mp h)

/-! ## Longest claimants -/

/-- A name that claims a constant, while no longer one does. There may be several. -/
structure IsLongest (claims : Text → Text → Bool) (names : List Text) (constant name : Text) :
    Prop where
  listed : name ∈ names
  claimed : claims name constant = true
  longest : ∀ other ∈ names, claims other constant = true → other.byteLength ≤ name.byteLength

/-- The longest claimant that was declared first. -/
def IsEarliest (claims : Text → Text → Bool) (names : List Text) (constant name : Text) : Prop :=
  IsLongest claims names constant name ∧
    ∀ other, IsLongest claims names constant other → other ≠ name → IsBefore names name other

/-- The longest claimant that was declared last. -/
def IsLatest (claims : Text → Text → Bool) (names : List Text) (constant name : Text) : Prop :=
  IsLongest claims names constant name ∧
    ∀ other, IsLongest claims names constant other → other ≠ name → IsBefore names other name

/-- Of the names with the most bytes the last one is chosen. -/
theorem isBefore_of_longest? (h : longest? names = some name) {other : Text}
    (listed : other ∈ names) (long : name.byteLength ≤ other.byteLength) (apart : other ≠ name) :
    IsBefore names other name := by
  induction names generalizing name with
  | nil => cases h
  | cons first rest ih =>
    rw [longest?] at h
    cases hr : longest? rest with
    | none =>
      rw [hr] at h
      cases h
      rw [longest?_eq_none_iff.mp hr] at listed
      exact absurd (List.mem_singleton.mp listed) apart
    | some last =>
      obtain ⟨lastListed, most⟩ := longest?_spec hr
      rw [hr] at h
      dsimp only at h
      split at h
      · cases h
        rcases List.mem_cons.mp listed with rfl | listed
        · exact isBefore_cons_of_mem _ lastListed
        · exact (ih hr listed long apart).cons _
      · next longer =>
        cases h
        rcases List.mem_cons.mp listed with same | listed
        · exact absurd same apart
        · have := most other listed
          omega

theorem isLongest_of_ownerAmong (h : ownerAmong claims names constant = some name) :
    IsLongest claims names constant name := by
  obtain ⟨listed, most⟩ := longest?_spec h
  obtain ⟨inNames, claimed⟩ := List.mem_filter.mp listed
  exact ⟨inNames, claimed, fun other ho hc => most other (List.mem_filter.mpr ⟨ho, hc⟩)⟩

/-- **The owner** of a constant is the longest claimant that was declared last. -/
theorem ownerAmong_eq_some_iff_isLatest (declared : names.Nodup) :
    ownerAmong claims names constant = some name ↔ IsLatest claims names constant name := by
  have latest : ∀ owner, ownerAmong claims names constant = some owner →
      IsLatest claims names constant owner := by
    intro owner h
    have chosen := isLongest_of_ownerAmong h
    refine ⟨chosen, fun other ho apart => ?_⟩
    have long := ho.longest owner chosen.listed chosen.claimed
    have before := isBefore_of_longest? h (List.mem_filter.mpr ⟨ho.listed, ho.claimed⟩) long apart
    exact List.Sublist.trans before List.filter_sublist
  refine ⟨latest name, fun h => ?_⟩
  cases ho : ownerAmong claims names constant with
  | none =>
    have unclaimed := ownerAmong_eq_none_iff.mp ho name h.1.listed
    rw [h.1.claimed] at unclaimed
    cases unclaimed
  | some owner =>
    obtain ⟨longest, last⟩ := latest owner ho
    by_contra apart
    have differ : owner ≠ name := fun same => apart (by rw [same])
    exact (h.2 owner longest differ).not_after declared (last name h.1 (Ne.symm differ))

/-! ## The pass -/

/-- **Where each constant ends up**, under any rule. A constant without claimants stays loose, and
one with claimants goes to the longest of them that was declared last. So it goes to the one that
was declared first exactly when no other claimant is as long. -/
theorem latest_longest_receives {constants : List Constant} (declared : names.Nodup)
    (keyed : (constants.map Constant.name).Nodup) :
    ∃ shares, associate claims (names.map fun name => { name := name }) constants = shares ∧
      shares.enums.map Enumeration.name = names ∧
      shares.loose.Sublist constants ∧ (∀ e ∈ shares.enums, e.values.Sublist constants) ∧
      ∀ c ∈ constants,
        (c ∈ shares.loose ↔ ∀ name ∈ names, claims name c.name = false) ∧
        ((∃ name ∈ names, claims name c.name = true) → ∃ e ∈ shares.enums, c ∈ e.values) ∧
        (∀ e ∈ shares.enums, c ∈ e.values ↔ IsLatest claims names c.name e.name) ∧
        ∀ e ∈ shares.enums, IsEarliest claims names c.name e.name →
          (c ∈ e.values ↔ ∀ other, IsLongest claims names c.name other → other = e.name) := by
  have received : ∀ e ∈ owners claims names constants, ∀ c ∈ constants,
      c ∈ e.values ↔ IsLatest claims names c.name e.name := by
    intro e he c hc
    obtain ⟨name, -, rfl⟩ := List.mem_map.mp he
    rw [← ownerAmong_eq_some_iff_isLatest declared]
    simp [valuesOf, hc]
  refine ⟨_, associate_eq keyed, map_name_owners claims names constants, List.filter_sublist, ?_,
    fun c hc => ⟨?_, ?_, fun e he => received e he c hc, ?_⟩⟩
  · intro e he
    obtain ⟨name, -, rfl⟩ := List.mem_map.mp he
    exact List.filter_sublist
  · rw [← ownerAmong_eq_none_iff]
    simp [looseOf, hc]
  · rintro ⟨name, listed, claimed⟩
    cases ho : ownerAmong claims names c.name with
    | none =>
      rw [ownerAmong_eq_none_iff.mp ho name listed] at claimed
      cases claimed
    | some owner =>
      refine ⟨⟨owner, valuesOf claims names constants owner⟩,
        List.mem_map.mpr ⟨owner, mem_names_of_ownerAmong ho, rfl⟩, ?_⟩
      simp [valuesOf, hc, ho]
  · intro e he earliest
    rw [received e he c hc]
    constructor
    · intro latest other ho
      by_contra apart
      exact (earliest.2 other ho apart).not_after declared (latest.2 other ho apart)
    · intro alone
      exact ⟨earliest.1, fun other ho apart => absurd (alone other ho) apart⟩

/-- A constant that two enumerations with names of one length may claim. -/
def contested : Constant where
  name := "X"
  typeName := "uint8"
  value := "0"
  line := 1

theorem contested_latest_receives :
    ∃ shares,
      associate (fun _ _ => true) [{ name := "AB" }, { name := "CD" }] [contested] = shares ∧
      ∃ e ∈ shares.enums, e.name = "CD" ∧ contested ∈ e.values := by
  have latest : IsLatest (fun _ _ => true) ["AB", "CD"] contested.name "CD" := by
    refine ⟨⟨by decide, rfl, by decide⟩, fun other ho apart => ?_⟩
    rcases List.mem_pair.mp ho.listed with rfl | rfl
    · exact List.Sublist.refl _
    · exact absurd rfl apart
  obtain ⟨shares, placed, named, -, -, each⟩ :=
    @latest_longest_receives (fun _ _ => true) ["AB", "CD"] [contested] (by decide) (by decide)
  have listed : ("CD" : Text) ∈ shares.enums.map Enumeration.name := by
    rw [named]
    decide
  obtain ⟨e, he, same⟩ := List.mem_map.mp listed
  refine ⟨shares, placed, e, he, same, ?_⟩
  rw [(each contested (List.mem_singleton_self _)).2.2.1 e he, same]
  exact latest

/-- Of two enumerations with names of one length the first does not receive a constant that both
claim. -/
theorem earliest_passed_over :
    IsEarliest (fun _ _ => true) ["AB", "CD"] contested.name "AB" ∧
      associate (fun _ _ => true) [{ name := "AB" }, { name := "CD" }] [contested] =
        ⟨[{ name := "AB" }, { name := "CD", values := [contested] }], []⟩ := by
  refine ⟨⟨⟨by decide, rfl, by decide⟩, fun other ho apart => ?_⟩, by decide⟩
  rcases List.mem_pair.mp ho.listed with rfl | rfl
  · exact absurd rfl apart
  · exact List.Sublist.refl _

end MessageDocs.Association
