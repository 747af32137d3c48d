import Mathlib.Data.List.Basic
import MessageDocs.Command.Inspect
import MessageDocs.Proofs.Json

/-! # What `inspect` prints as JSON

The JSON form of a message has a member for all that the message holds but its source, and lists
keep their order in it. As a JSON value can be told from its text, a message can be told from what
is printed, up to its source.

* `Message.toJson_eq_iff`: messages with the same JSON form.
* `Command.Inspect.message?`: the message that a run reads.
* `Command.Inspect.json_tells_message`: messages for which the same text is printed.
-/

set_option autoImplicit false

namespace MessageDocs

/-! ## Messages as JSON -/

theorem Json.ofOption_injective : Function.Injective ofOption := by
  intro s t h
  cases s with
  | none =>
    cases t with
    | none => rfl
    | some t => cases h
  | some s =>
    cases t with
    | none => cases h
    | some t => rw [Json.string.inj h]

theorem Json.map_string_injective : Function.Injective (List.map Json.string) :=
  List.map_injective_iff.mpr fun _ _ => Json.string.inj

theorem Field.toJson_injective : Function.Injective Field.toJson := by
  rintro ⟨⟩ ⟨⟩ h
  simpa only [toJson, Json.object.injEq, List.cons.injEq, Prod.mk.injEq, Json.string.injEq,
    Json.array.injEq, Json.number.injEq, Json.ofOption_injective.eq_iff,
    Json.map_string_injective.eq_iff, true_and, and_true, Field.mk.injEq] using h

theorem Constant.toJson_injective : Function.Injective Constant.toJson := by
  rintro ⟨⟩ ⟨⟩ h
  simpa only [toJson, Json.object.injEq, List.cons.injEq, Prod.mk.injEq, Json.string.injEq,
    Json.number.injEq, Json.ofOption_injective.eq_iff, true_and, and_true,
    Constant.mk.injEq] using h

theorem Constant.tableToJson_injective : Function.Injective Constant.tableToJson := by
  intro constants others h
  have entry : Function.Injective fun c : Constant => (c.name, c.toJson) :=
    fun _ _ same => Constant.toJson_injective (Prod.mk.inj same).2
  exact List.map_injective_iff.mpr entry (Json.object.inj h)

theorem Enumeration.toJson_injective : Function.Injective Enumeration.toJson := by
  rintro ⟨⟩ ⟨⟩ h
  simpa only [toJson, Json.object.injEq, List.cons.injEq, Prod.mk.injEq, Json.string.injEq,
    Constant.tableToJson_injective.eq_iff, true_and, and_true, Enumeration.mk.injEq] using h

/-- **Messages with the same JSON form** differ at most in their source. -/
theorem Message.toJson_eq_iff {m m' : Message} :
    m.toJson = m'.toJson ↔ { m with source := [] } = { m' with source := [] } := by
  have entry : Function.Injective fun e : Enumeration => (e.name, e.toJson) :=
    fun _ _ same => Enumeration.toJson_injective (Prod.mk.inj same).2
  obtain ⟨name, ⟨path⟩, short, long, fields, enums, constants, source⟩ := m
  obtain ⟨name', ⟨path'⟩, short', long', fields', enums', constants', source'⟩ := m'
  simp only [toJson, Json.object.injEq, List.cons.injEq, Prod.mk.injEq, Json.string.injEq,
    Json.array.injEq, Constant.tableToJson_injective.eq_iff,
    (List.map_injective_iff.mpr Field.toJson_injective).eq_iff,
    (List.map_injective_iff.mpr entry).eq_iff, true_and, and_true, Message.mk.injEq, Path.mk.injEq]

namespace Command.Inspect

/-! ## What is printed -/

theorem render_json_eq_iff {m m' : Message} :
    render true m = render true m' ↔ { m with source := [] } = { m' with source := [] } := by
  rw [← Message.toJson_eq_iff, render, render, if_pos rfl, if_pos rfl, List.append_cancel_right_eq]
  exact Json.print_injective.eq_iff

/-- The message that a run reads: that of the first schema at its path, if there is one. -/
def message? (a : Inspect) (d : Disk) : Option Message :=
  match Discovery.ofInputs d [a.file] with
  | .error _ => none
  | .ok found =>
    match found.files with
    | [] => none
    | file :: _ =>
      (Batch.readSchema d (found.manifest.readOptions.withMatching a.matching) file).1.toOption

theorem run_of_message? {a : Inspect} {d : Disk} {m : Message} (h : message? a d = some m)
    (t : Terminal) : (run a t d).result = .ok () ∧ (run a t d).session.out = render a.json m := by
  rw [message?] at h
  rw [run]
  cases inputs : Discovery.ofInputs d [a.file] with
  | error e =>
    rw [inputs] at h
    cases h
  | ok found =>
    rw [inputs] at h
    dsimp only at h ⊢
    cases listed : found.files with
    | nil =>
      rw [listed] at h
      cases h
    | cons file files =>
      rw [listed] at h
      dsimp only at h ⊢
      match read : Batch.readSchema d (found.manifest.readOptions.withMatching a.matching) file with
      | (.error e, _) =>
        rw [read] at h
        cases h
      | (.ok m', ds) =>
        rw [read] at h
        cases h
        exact ⟨rfl, rfl⟩

/-- **What is printed as JSON** tells all of a message but its source: the same text is printed for
two messages if and only if they have the same name and path, the same descriptions, and the same
fields, enumerations and constants in the same order. So it is for two runs, each of which prints
the message that it reads. -/
theorem json_tells_message :
    (∀ m m' : Message, render true m = render true m' ↔
      { m with source := [] } = { m' with source := [] }) ∧
    ∀ (a a' : Inspect) (d d' : Disk) (m m' : Message), a.json = true → a'.json = true →
      message? a d = some m → message? a' d' = some m' → ∀ t t' : Terminal,
        ((run a t d).session.out = (run a' t' d').session.out ↔
          { m with source := [] } = { m' with source := [] }) := by
  refine ⟨fun m m' => render_json_eq_iff, ?_⟩
  intro a a' d d' m m' json json' read read' t t'
  rw [(run_of_message? read t).2, (run_of_message? read' t').2, json, json']
  exact render_json_eq_iff

/-- A disk with one schema. -/
def schemaDisk (source : Text) : Disk where
  tree := (FileTree.empty.putFile ["A.msg"] (.text source)).getD FileTree.empty
  cwd := []

/-- The message of a schema with one field, with a quote in its description. -/
def oneField (unit : Option Text) (source : Text) : Message where
  name := "A"
  path := ⟨"A.msg"⟩
  short := []
  long := []
  fields := [{ name := "x", typeName := "u8", description := "\"", unit := unit, line := 1 }]
  enums := []
  constants := []
  source := source

/-- Blanks make no difference, an empty unit and none do. -/
theorem oneField_told :
    let a : Inspect := { file := ⟨"A.msg"⟩, json := true }
    let out := fun source => (run a {} (schemaDisk source)).session.out
    out "u8 x # [] \"" = out "u8  x #[]\"" ∧ out "u8 x # [] \"" ≠ out "u8 x # \"" := by
  intro a out
  have empty : message? a (schemaDisk "u8 x # [] \"") =
      some (oneField (some []) "u8 x # [] \"") := by decide +kernel
  have narrow : message? a (schemaDisk "u8  x #[]\"") =
      some (oneField (some []) "u8  x #[]\"") := by decide +kernel
  have none : message? a (schemaDisk "u8 x # \"") = some (oneField none "u8 x # \"") := by
    decide +kernel
  constructor
  · exact (json_tells_message.2 _ _ _ _ _ _ rfl rfl empty narrow _ _).mpr rfl
  · intro same
    have told := (json_tells_message.2 _ _ _ _ _ _ rfl rfl empty none _ _).mp same
    exact absurd told (by decide +kernel)

end Command.Inspect

end MessageDocs
