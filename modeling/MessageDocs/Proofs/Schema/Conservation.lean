import MessageDocs.Message.Schema
import MessageDocs.Proofs.Schema.Reading

/-! # Reading a schema loses no constant

Each constant that a schema declares is in the message once: among the values of the enumeration
with the longest name of those that claim it, or loose when none does. Where the enumeration is
mentioned plays no part, since constants are distributed after the last line.
-/

set_option autoImplicit false

namespace MessageDocs

namespace Association

variable {rule : Matching} {names : List Text} {constants : List Constant}

/-- Whether some enumeration claims a constant. -/
def IsClaimed (rule : Matching) (enums : List Enumeration) (c : Constant) : Prop :=
  ∃ e ∈ enums, rule.claims e.name c.name = true

instance (rule : Matching) (enums : List Enumeration) (c : Constant) :
    Decidable (IsClaimed rule enums c) :=
  inferInstanceAs (Decidable (∃ e ∈ enums, _))

/-- Whether an enumeration is the one with the longest name among those that claim a constant. -/
def IsLongestClaimant (rule : Matching) (enums : List Enumeration) (e : Enumeration)
    (c : Constant) : Prop :=
  rule.claims e.name c.name = true ∧
    ∀ other ∈ enums, rule.claims other.name c.name = true →
      other = e ∨ other.name.byteLength < e.name.byteLength

instance (rule : Matching) (enums : List Enumeration) (e : Enumeration) (c : Constant) :
    Decidable (IsLongestClaimant rule enums e c) :=
  inferInstanceAs (Decidable (_ ∧ ∀ other ∈ enums, _))

theorem mem_owners_iff {claims : Text → Text → Bool} {e : Enumeration} :
    e ∈ owners claims names constants ↔
      e.name ∈ names ∧ e.values = valuesOf claims names constants e.name := by
  rw [owners, List.mem_map]
  constructor
  · rintro ⟨name, listed, rfl⟩
    exact ⟨listed, rfl⟩
  · rintro ⟨listed, values⟩
    exact ⟨e.name, listed, by rw [← values]⟩

/-- Enumerations of one name have the same values. -/
theorem eq_of_mem_owners {claims : Text → Text → Bool} {e e' : Enumeration}
    (he : e ∈ owners claims names constants) (he' : e' ∈ owners claims names constants)
    (h : e.name = e'.name) : e = e' := by
  have values := (mem_owners_iff.mp he).2
  have values' := (mem_owners_iff.mp he').2
  cases e
  cases e'
  cases h
  rw [Enumeration.mk.injEq]
  exact ⟨rfl, values.trans values'.symm⟩

theorem looseOf_eq_filter :
    looseOf rule.claims names constants =
      constants.filter fun c => ¬IsClaimed rule (owners rule.claims names constants) c := by
  apply List.filter_congr
  intro c _
  rw [decide_eq_decide, ownerAmong_eq_none_iff]
  constructor
  · rintro unclaimed ⟨e, he, claimed⟩
    rw [unclaimed e.name (mem_owners_iff.mp he).1] at claimed
    cases claimed
  · intro unclaimed name listed
    rw [Bool.eq_false_iff]
    intro claimed
    exact unclaimed ⟨⟨name, valuesOf rule.claims names constants name⟩,
      mem_owners_iff.mpr ⟨listed, rfl⟩, claimed⟩

theorem values_eq_filter {e : Enumeration} (he : e ∈ owners rule.claims names constants) :
    e.values =
      constants.filter (IsLongestClaimant rule (owners rule.claims names constants) e) := by
  obtain ⟨listed, values⟩ := mem_owners_iff.mp he
  rw [values]
  apply List.filter_congr
  intro c _
  rw [decide_eq_decide, ownerAmong_eq_some_iff]
  constructor
  · rintro ⟨-, claimed, most⟩
    refine ⟨claimed, ?_⟩
    intro other ho hc
    exact (most other.name (mem_owners_iff.mp ho).1 hc).imp_left (eq_of_mem_owners ho he)
  · rintro ⟨claimed, most⟩
    refine ⟨listed, claimed, ?_⟩
    intro name hn hc
    exact (most ⟨name, valuesOf rule.claims names constants name⟩
      (mem_owners_iff.mpr ⟨hn, rfl⟩) hc).imp_left (congrArg Enumeration.name)

end Association

namespace Schema

open Association

theorem allConstants_messageOf_perm (options : ReadOptions) (path : Path) (source : Text) :
    (messageOf options path source).allConstants.Perm (constantsOf source) :=
  owners_append_loose_perm (Draft.nodup_mentioned _) _

/-- **Reading conserves constants**: the loose ones are those that no enumeration claims, the values
of an enumeration are those it claims with the longest name, both in the order of their lines, and
together they are the declared constants, each once. -/
theorem constants_conserved {options : ReadOptions} {path : Path} {source : Text} {m : Message}
    {ds ds' : Diagnostics} (h : readInto options path source ds = (.ok m, ds')) :
    m.constants = (constantsOf source).filter (fun c => ¬IsClaimed options.matching m.enums c) ∧
    (∀ e ∈ m.enums,
      e.values = (constantsOf source).filter (IsLongestClaimant options.matching m.enums e)) ∧
    m.allConstants.Perm (constantsOf source) ∧
    (m.allConstants.map Constant.name).Nodup ∧
    (m.enums.map Enumeration.name).Nodup := by
  obtain ⟨wf, rfl, -⟩ := readInto_eq_ok_iff.mp h
  have perm := allConstants_messageOf_perm options path source
  refine ⟨looseOf_eq_filter, fun e he => values_eq_filter he, perm, ?_, ?_⟩
  · exact (perm.map Constant.name).nodup_iff.mpr wf.constants
  · rw [messageOf, map_name_owners]
    exact Draft.nodup_mentioned _

/-- A schema whose constants stand before the fields that mention their enumerations, one of which
begins the name of the other. -/
def nestedEnums : Text :=
  "u8 MODE_EXT_A=1\nu8 MODE_B=2\nu8 X=3\nu8 m#[@enum MODE]\nu8 e#[@enum MODE_EXT]\n"

theorem nestedEnums_conserved :
    ∃ m ds, readInto {} ⟨"Mode.msg"⟩ nestedEnums {} = (.ok m, ds) ∧
      m.enums.map (fun e => e.values.map Constant.line) = [[2], [1]] ∧
      m.constants.map Constant.line = [3] ∧
      m.allConstants.Perm (constantsOf nestedEnums) := by
  have wf : IsWellFormed nestedEnums := by decide +kernel
  have h := readInto_of_isWellFormed wf {} ⟨"Mode.msg"⟩ {}
  have places : (messageOf {} ⟨"Mode.msg"⟩ nestedEnums).enums.map
      (fun e => e.values.map Constant.line) = [[2], [1]] ∧
      (messageOf {} ⟨"Mode.msg"⟩ nestedEnums).constants.map Constant.line = [3] := by
    decide +kernel
  exact ⟨_, _, h, places.1, places.2, (constants_conserved h).2.2.1⟩

end Schema

end MessageDocs
