import MessageDocs.Proofs.Schema.FirstError
import MessageDocs.Proofs.Schema.Remarks

/-! # Reading one schema under two matching rules

The rule plays no part before the last line: a schema that cannot be read fails in the same way
under both rules. Afterwards a stricter rule takes claims away. A constant may lose its owner, or
come to another one; both owners begin its name, so the new one begins the name of the old.

* `Association.exists_ownerAmong_of_covers`: the owners of one constant under two rules.
* `Message.Refines`: a message whose constants are held by fewer enumerations, with shorter names.
* `Schema.delimited_refines_prefix`: one source under the two rules of the program.
-/

set_option autoImplicit false

namespace MessageDocs

/-- Whether a rule lets enumerations claim all that they claim under a stricter one. -/
def Matching.Covers (lax strict : Matching) : Prop :=
  ∀ enum constant : Text, strict.claims enum constant = true → lax.claims enum constant = true

theorem Matching.byPrefix_covers_delimited : Matching.byPrefix.Covers .delimited := fun _ _ h =>
  List.isPrefixOf_iff_prefix.mpr (Matching.prefix_of_claims h)

/-! ## Owners and loose constants -/

namespace Association

variable {lax strict : Matching} (covers : lax.Covers strict) {names : List Text}

include covers

/-- **A constant with an owner** under the stricter rule has one under the other rule too, whose
name goes on from that of the first. -/
theorem exists_ownerAmong_of_covers {constant owner : Text}
    (h : ownerAmong strict.claims names constant = some owner) :
    ∃ owner', ownerAmong lax.claims names constant = some owner' ∧ owner <+: owner' := by
  obtain ⟨listed, claimed, -⟩ := ownerAmong_eq_some_iff.mp h
  have claimed' := covers owner constant claimed
  cases found : ownerAmong lax.claims names constant with
  | none =>
    rw [ownerAmong_eq_none_iff.mp found owner listed] at claimed'
    cases claimed'
  | some owner' =>
    obtain ⟨-, byOther, longest⟩ := ownerAmong_eq_some_iff.mp found
    refine ⟨owner', rfl, ?_⟩
    rcases longest owner listed claimed' with same | shorter
    · rw [same]
    · -- Both begin the name of the constant, so the shorter one begins the longer one.
      refine (List.prefix_or_prefix_of_prefix (Matching.prefix_of_claims claimed)
        (Matching.prefix_of_claims byOther)).resolve_right fun longer => ?_
      have := Text.byteLength_lt_of_prefix longer (fun same => by rw [same] at shorter; omega)
      omega

theorem looseOf_sublist_of_covers (constants : List Constant) :
    (looseOf lax.claims names constants).Sublist (looseOf strict.claims names constants) := by
  refine List.monotone_filter_right constants fun c loose => ?_
  rw [decide_eq_true_eq, ownerAmong_eq_none_iff] at loose ⊢
  intro name listed
  rw [Bool.eq_false_iff]
  intro claimed
  have claimed' := covers name c.name claimed
  rw [loose name listed] at claimed'
  cases claimed'

theorem exists_mem_owners_of_covers {constants : List Constant} {e : Enumeration}
    (he : e ∈ owners strict.claims names constants) {c : Constant} (hc : c ∈ e.values) :
    ∃ e' ∈ owners lax.claims names constants, c ∈ e'.values ∧ e.name <+: e'.name := by
  obtain ⟨name, -, rfl⟩ := List.mem_map.mp he
  obtain ⟨declared, owned⟩ := List.mem_filter.mp hc
  obtain ⟨name', owned', goesOn⟩ := exists_ownerAmong_of_covers covers (of_decide_eq_true owned)
  refine ⟨_, List.mem_map_of_mem (mem_names_of_ownerAmong owned'), ?_, goesOn⟩
  exact List.mem_filter.mpr ⟨declared, decide_eq_true owned'⟩

end Association

/-! ## Messages -/

/-- Whether two messages differ in the places of constants only, and the first holds fewer of them:
what is loose in the second is loose in the first, and what an enumeration of the first holds is
held in the second by one whose name goes on from its name. -/
structure Message.Refines (strict lax : Message) : Prop where
  outside : { strict with enums := lax.enums, constants := lax.constants } = lax
  enumNames : strict.enums.map Enumeration.name = lax.enums.map Enumeration.name
  loose : lax.constants.Sublist strict.constants
  held : ∀ e ∈ strict.enums, ∀ c ∈ e.values,
    ∃ e' ∈ lax.enums, c ∈ e'.values ∧ e.name <+: e'.name

theorem Message.Refines.fields_eq {strict lax : Message} (h : strict.Refines lax) :
    strict.fields = lax.fields := by
  rw [← h.outside]

namespace Schema

open Association

variable {path : Path} {source : Text}

theorem refines_messageOf {lax strict : Matching} (covers : lax.Covers strict) (units : NameSet)
    (path : Path) (source : Text) :
    (messageOf ⟨units, strict⟩ path source).Refines (messageOf ⟨units, lax⟩ path source) where
  outside := rfl
  enumNames := by
    rw [messageOf, messageOf, map_name_owners, map_name_owners]
  loose := looseOf_sublist_of_covers covers _
  held := fun _ he _ hc => exists_mem_owners_of_covers covers he hc

/-! ## Readings that fail -/

/-- The rule plays no part in the reading of lines. -/
theorem readLines_congr_matching (units : NameSet) (rule rule' : Matching)
    (lines : List NumberedLine) (d : Draft) (ds : Diagnostics) :
    readLines ⟨units, rule⟩ path lines d ds = readLines ⟨units, rule'⟩ path lines d ds := by
  induction lines generalizing d ds with
  | nil => rfl
  | cons l lines ih =>
    have first : readLine ⟨units, rule⟩ path l d ds = readLine ⟨units, rule'⟩ path l d ds := rfl
    rw [readLines, readLines, first]
    split
    · exact ih _ _
    · rfl

theorem readInto_error_congr_matching {units : NameSet} {rule rule' : Matching} {e : Failure}
    {ds ds' : Diagnostics} (h : readInto ⟨units, rule⟩ path source ds = (.error e, ds')) :
    readInto ⟨units, rule'⟩ path source ds = (.error e, ds') := by
  unfold readInto at h ⊢
  dsimp only at h ⊢
  rw [readLines_congr_matching units rule' rule]
  split at h
  · exact h
  · cases h

/-! ## The two rules -/

/-- **One source under two rules**, of which one covers the other: the readings fail alike, or the
message of the stricter rule refines the other. -/
theorem readInto_refines {lax strict : Matching} (covers : lax.Covers strict) (units : NameSet)
    (path : Path) (source : Text) (ds : Diagnostics) :
    (∃ e ds', readInto ⟨units, lax⟩ path source ds = (.error e, ds') ∧
      readInto ⟨units, strict⟩ path source ds = (.error e, ds')) ∨
    ∃ m after m' after', readInto ⟨units, lax⟩ path source ds = (.ok m, after) ∧
      readInto ⟨units, strict⟩ path source ds = (.ok m', after') ∧ m'.Refines m := by
  rcases first : readInto ⟨units, lax⟩ path source ds with ⟨result, after⟩
  cases result with
  | error e => exact Or.inl ⟨e, after, rfl, readInto_error_congr_matching first⟩
  | ok m =>
    obtain ⟨wf, rfl, rfl⟩ := readInto_eq_ok_iff.mp first
    exact Or.inr ⟨_, _, _, _, rfl, readInto_of_isWellFormed wf _ path ds,
      refines_messageOf covers units path source⟩

/-- What is recorded for the summary when a source is read on its own. -/
theorem unassociatedCount_of_read {options : ReadOptions} {m : Message} {ds : Diagnostics}
    (h : read options path source = (.ok m, ds)) :
    ds.unassociatedCount (Message.nameOfPath path) = m.constants.length := by
  have entries := unassociated_of_read h
  obtain ⟨-, rfl, -⟩ := readInto_eq_ok_iff.mp h
  rw [Diagnostics.unassociatedCount, NameMap.find?, entries]
  split
  · next none => rw [none]; rfl
  · simp [messageOf]

/-- **Delimited matching refines prefix matching.** A source that cannot be read fails under both
rules with one failure and the same remarks. Otherwise the two messages agree outside of the places
of constants, a constant that is loose under prefix matching is loose under delimited matching, and
one that is held under delimited matching is held under prefix matching by an enumeration whose
name goes on from that of the first. So the number of loose constants never becomes lower. -/
theorem delimited_refines_prefix (units : NameSet) (path : Path) (source : Text) :
    (∀ ds : Diagnostics,
      (∃ e ds', readInto ⟨units, .byPrefix⟩ path source ds = (.error e, ds') ∧
        readInto ⟨units, .delimited⟩ path source ds = (.error e, ds')) ∨
      ∃ p dsP d dsD, readInto ⟨units, .byPrefix⟩ path source ds = (.ok p, dsP) ∧
        readInto ⟨units, .delimited⟩ path source ds = (.ok d, dsD) ∧
        d.Refines p ∧ d.fields = p.fields ∧ p.constants.length ≤ d.constants.length) ∧
    (read ⟨units, .byPrefix⟩ path source).2.unassociatedCount (Message.nameOfPath path) ≤
      (read ⟨units, .delimited⟩ path source).2.unassociatedCount (Message.nameOfPath path) := by
  have compared := readInto_refines Matching.byPrefix_covers_delimited units path source
  constructor
  · intro ds
    refine (compared ds).imp_right ?_
    rintro ⟨p, dsP, d, dsD, byPrefix, delimited, refines⟩
    exact ⟨p, dsP, d, dsD, byPrefix, delimited, refines, refines.fields_eq,
      refines.loose.length_le⟩
  · rcases compared {} with ⟨e, ds', byPrefix, delimited⟩ |
      ⟨p, dsP, d, dsD, byPrefix, delimited, refines⟩
    · rw [read, read, byPrefix, delimited]
    · have counted := unassociatedCount_of_read byPrefix
      have counted' := unassociatedCount_of_read delimited
      rw [read, read, byPrefix, delimited]
      dsimp only
      rw [counted, counted']
      exact refines.loose.length_le

/-- A constant that goes from one enumeration to another, and one that becomes loose. -/
example :
    let source : Text := "u8 a # [@enum STATUS STATUS_O]\nu8 STATUS_OK = 1\nu8 STATUSBAR = 2\n"
    let held (rule : Matching) := (messageOf ⟨Units.standard, rule⟩ ⟨"A.msg"⟩ source).enums.map
      fun e => (e.name, e.values.map Constant.line)
    held .byPrefix = [("STATUS".toList, [3]), ("STATUS_O".toList, [2])] ∧
      held .delimited = [("STATUS".toList, [2]), ("STATUS_O".toList, [])] := by
  decide +kernel

end Schema

end MessageDocs
