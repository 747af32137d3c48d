import Mathlib.Data.List.Basic
import Mathlib.Data.List.Nodup
import MessageDocs.Draft
import MessageDocs.Proofs.Association

/-! # What a draft holds after a list of declarations

A draft takes fields and constants one at a time and refuses a name it already has.

* `Draft.accept` is the draft after a declaration that it does not refuse; `Draft.Admits` says when
  it does not.
* `Draft.acceptAll_fields`, `acceptAll_constants` and `acceptAll_enumNames` list what a whole run of
  declarations leaves in it.
* `Draft.admitsAll_iff`: a run is admitted exactly when no two of its fields and no two of its
  constants have the same name.
-/

set_option autoImplicit false

namespace MessageDocs

/-- A field or a constant, as a schema line declares it. -/
inductive Declared where
  | field (f : Field)
  | constant (c : Constant)
  deriving DecidableEq, Repr

namespace Declared

def field? : Declared → Option Field
  | field f => some f
  | constant _ => none

def constant? : Declared → Option Constant
  | field _ => none
  | constant c => some c

/-- The fields among some declarations. -/
def fields (entries : List Declared) : List Field :=
  entries.filterMap field?

/-- The constants among some declarations. -/
def constants (entries : List Declared) : List Constant :=
  entries.filterMap constant?

@[simp] theorem fields_nil : fields [] = [] := rfl

@[simp] theorem constants_nil : constants [] = [] := rfl

@[simp] theorem fields_cons_field (f : Field) (es : List Declared) :
    fields (.field f :: es) = f :: fields es := rfl

@[simp] theorem fields_cons_constant (c : Constant) (es : List Declared) :
    fields (.constant c :: es) = fields es := rfl

@[simp] theorem constants_cons_field (f : Field) (es : List Declared) :
    constants (.field f :: es) = constants es := rfl

@[simp] theorem constants_cons_constant (c : Constant) (es : List Declared) :
    constants (.constant c :: es) = c :: constants es := rfl

theorem fields_append (es es' : List Declared) : fields (es ++ es') = fields es ++ fields es' :=
  List.filterMap_append

theorem constants_append (es es' : List Declared) :
    constants (es ++ es') = constants es ++ constants es' :=
  List.filterMap_append

@[simp] theorem fields_map_field (fs : List Field) : fields (fs.map field) = fs := by
  induction fs with
  | nil => rfl
  | cons f fs ih => rw [List.map_cons, fields_cons_field, ih]

@[simp] theorem fields_map_constant (cs : List Constant) : fields (cs.map constant) = [] := by
  induction cs with
  | nil => rfl
  | cons c cs ih => rw [List.map_cons, fields_cons_constant, ih]

@[simp] theorem constants_map_field (fs : List Field) : constants (fs.map field) = [] := by
  induction fs with
  | nil => rfl
  | cons f fs ih => rw [List.map_cons, constants_cons_field, ih]

@[simp] theorem constants_map_constant (cs : List Constant) :
    constants (cs.map constant) = cs := by
  induction cs with
  | nil => rfl
  | cons c cs ih => rw [List.map_cons, constants_cons_constant, ih]

end Declared

namespace Draft

/-! ## Names of enumerations -/

/-- Names with one more at their end, unless it is already there. -/
def addNew (names : List Text) (name : Text) : List Text :=
  if names.contains name then names else names ++ [name]

theorem nodup_append_singleton {names : List Text} {name : Text} (new : name ∉ names)
    (h : names.Nodup) : (names ++ [name]).Nodup := by
  refine List.nodup_append.mpr ⟨h, List.nodup_singleton _, ?_⟩
  intro n hn other ho same
  rw [List.mem_singleton.mp ho] at same
  exact new (same ▸ hn)

theorem nodup_addNew {names : List Text} (h : names.Nodup) (name : Text) :
    (addNew names name).Nodup := by
  unfold addNew
  split
  · exact h
  · next new => exact nodup_append_singleton (by simpa using new) h

/-- The names in the order of their first mention. -/
def mentioned (mentions : List Text) : List Text :=
  mentions.foldl addNew []

theorem nodup_foldl_addNew {names : List Text} (h : names.Nodup) (mentions : List Text) :
    (mentions.foldl addNew names).Nodup := by
  induction mentions generalizing names with
  | nil => exact h
  | cons m ms ih => exact ih (nodup_addNew h m)

theorem nodup_mentioned (mentions : List Text) : (mentioned mentions).Nodup :=
  nodup_foldl_addNew List.nodup_nil mentions

theorem declareEnum_eq (d : Draft) (name : Text) :
    d.declareEnum name = { d with enumNames := addNew d.enumNames name } := by
  unfold declareEnum addNew
  split <;> rfl

theorem declareEnums_eq (d : Draft) (names : List Text) :
    d.declareEnums names = { d with enumNames := names.foldl addNew d.enumNames } := by
  induction names generalizing d with
  | nil => rfl
  | cons n ns ih =>
    change (d.declareEnum n).declareEnums ns = _
    rw [ih, declareEnum_eq, List.foldl_cons]

/-! ## One declaration -/

/-- The draft after a declaration whose name is new. -/
def accept (d : Draft) : Declared → Draft
  | .field f => { d.declareEnums f.enumTags with fields := d.fields ++ [f] }
  | .constant c => { d with constants := d.constants ++ [c] }

/-- Whether a declaration's name is new among those of its kind. -/
def Admits (d : Draft) : Declared → Prop
  | .field f => f.name ∉ d.fields.map Field.name
  | .constant c => c.name ∉ d.constants.map Constant.name

theorem find?_eq_none_iff {α : Type} {nameOf : α → Text} {roster : List α} {name : Text} :
    Roster.find? nameOf roster name = none ↔ name ∉ roster.map nameOf := by
  rw [Roster.find?, List.find?_eq_none, List.mem_map]
  simp

theorem addField_declareEnums_eq_ok_iff {d d' : Draft} {f : Field} :
    (d.declareEnums f.enumTags).addField f = .ok d' ↔
      d.Admits (.field f) ∧ d' = d.accept (.field f) := by
  have fields_eq : (d.declareEnums f.enumTags).fields = d.fields := by rw [declareEnums_eq]
  rw [addField, Admits, accept, fields_eq, ← find?_eq_none_iff]
  cases Roster.find? Field.name d.fields f.name with
  | none => simp [eq_comm]
  | some first => simp

theorem addConstant_eq_ok_iff {d d' : Draft} {c : Constant} :
    d.addConstant c = .ok d' ↔ d.Admits (.constant c) ∧ d' = d.accept (.constant c) := by
  rw [addConstant, Admits, accept, ← find?_eq_none_iff]
  cases Roster.find? Constant.name d.constants c.name with
  | none => simp [eq_comm]
  | some first => simp

/-! ## A run of declarations -/

def acceptAll (d : Draft) (entries : List Declared) : Draft :=
  entries.foldl accept d

/-- Whether each declaration's name is new when its turn comes. -/
def AdmitsAll : Draft → List Declared → Prop
  | _, [] => True
  | d, e :: es => d.Admits e ∧ AdmitsAll (d.accept e) es

@[simp] theorem acceptAll_nil (d : Draft) : d.acceptAll [] = d := rfl

@[simp] theorem acceptAll_cons (d : Draft) (e : Declared) (es : List Declared) :
    d.acceptAll (e :: es) = (d.accept e).acceptAll es := rfl

@[simp] theorem accept_field_fields (d : Draft) (f : Field) :
    (d.accept (.field f)).fields = d.fields ++ [f] := rfl

@[simp] theorem accept_field_constants (d : Draft) (f : Field) :
    (d.accept (.field f)).constants = d.constants := by
  rw [accept, declareEnums_eq]

@[simp] theorem accept_field_enumNames (d : Draft) (f : Field) :
    (d.accept (.field f)).enumNames = f.enumTags.foldl addNew d.enumNames := by
  rw [accept, declareEnums_eq]

@[simp] theorem accept_constant_fields (d : Draft) (c : Constant) :
    (d.accept (.constant c)).fields = d.fields := rfl

@[simp] theorem accept_constant_constants (d : Draft) (c : Constant) :
    (d.accept (.constant c)).constants = d.constants ++ [c] := rfl

@[simp] theorem accept_constant_enumNames (d : Draft) (c : Constant) :
    (d.accept (.constant c)).enumNames = d.enumNames := rfl

@[simp] theorem accept_path (d : Draft) (e : Declared) : (d.accept e).path = d.path := by
  cases e with
  | field f => rw [accept, declareEnums_eq]
  | constant c => rfl

@[simp] theorem accept_source (d : Draft) (e : Declared) : (d.accept e).source = d.source := by
  cases e with
  | field f => rw [accept, declareEnums_eq]
  | constant c => rfl

theorem acceptAll_append (d : Draft) (es es' : List Declared) :
    d.acceptAll (es ++ es') = (d.acceptAll es).acceptAll es' :=
  List.foldl_append

theorem admitsAll_append {d : Draft} {es es' : List Declared} :
    d.AdmitsAll (es ++ es') ↔ d.AdmitsAll es ∧ (d.acceptAll es).AdmitsAll es' := by
  induction es generalizing d with
  | nil => simp [AdmitsAll]
  | cons e es ih => simp [AdmitsAll, ih, and_assoc]

theorem acceptAll_fields (d : Draft) (es : List Declared) :
    (d.acceptAll es).fields = d.fields ++ Declared.fields es := by
  induction es generalizing d with
  | nil => simp
  | cons e es ih => cases e <;> simp [ih]

theorem acceptAll_constants (d : Draft) (es : List Declared) :
    (d.acceptAll es).constants = d.constants ++ Declared.constants es := by
  induction es generalizing d with
  | nil => simp
  | cons e es ih => cases e <;> simp [ih]

theorem acceptAll_enumNames (d : Draft) (es : List Declared) :
    (d.acceptAll es).enumNames =
      ((Declared.fields es).flatMap Field.enumTags).foldl addNew d.enumNames := by
  induction es generalizing d with
  | nil => simp
  | cons e es ih => cases e <;> simp [ih]

theorem acceptAll_path (d : Draft) (es : List Declared) : (d.acceptAll es).path = d.path := by
  induction es generalizing d with
  | nil => rfl
  | cons e es ih => simp [ih]

theorem acceptAll_source (d : Draft) (es : List Declared) :
    (d.acceptAll es).source = d.source := by
  induction es generalizing d with
  | nil => rfl
  | cons e es ih => simp [ih]

/-- Names are distinct before a new one exactly when it is not among them. -/
theorem nodup_append_cons_iff {names : List Text} {name : Text} {more : List Text} :
    (names ++ name :: more).Nodup ↔ name ∉ names ∧ (names ++ [name] ++ more).Nodup := by
  rw [List.append_assoc, List.singleton_append]
  refine ⟨fun h => ⟨?_, h⟩, fun h => h.2⟩
  intro listed
  exact (List.nodup_append.mp h).2.2 name listed name List.mem_cons_self rfl

/-- A run is admitted exactly when the names of its fields and those of its constants are distinct,
also from those that the draft already holds. -/
theorem admitsAll_iff {d : Draft} {es : List Declared}
    (fieldNames : (d.fields.map Field.name).Nodup)
    (constantNames : (d.constants.map Constant.name).Nodup) :
    d.AdmitsAll es ↔
      (d.fields.map Field.name ++ (Declared.fields es).map Field.name).Nodup ∧
        (d.constants.map Constant.name ++ (Declared.constants es).map Constant.name).Nodup := by
  induction es generalizing d with
  | nil => simp [AdmitsAll, fieldNames, constantNames]
  | cons e es ih =>
    cases e with
    | field f =>
      rw [AdmitsAll, Admits, Declared.fields_cons_field, Declared.constants_cons_field,
        List.map_cons, nodup_append_cons_iff, and_assoc]
      refine and_congr_right fun new => ?_
      have names : ((d.accept (.field f)).fields.map Field.name).Nodup := by
        rw [accept_field_fields, List.map_append, List.map_singleton]
        exact nodup_append_singleton new fieldNames
      rw [ih names (by simpa using constantNames)]
      simp
    | constant c =>
      rw [AdmitsAll, Admits, Declared.fields_cons_constant, Declared.constants_cons_constant,
        List.map_cons, nodup_append_cons_iff, and_left_comm]
      refine and_congr_right fun new => ?_
      have names : ((d.accept (.constant c)).constants.map Constant.name).Nodup := by
        rw [accept_constant_constants, List.map_append, List.map_singleton]
        exact nodup_append_singleton new constantNames
      rw [ih (by simpa using fieldNames) names]
      simp

/-! ## Finishing -/

/-- The finished message of a draft, with every constant where it belongs. -/
theorem finish_eq {d : Draft} (claims : Text → Text → Bool)
    (h : (d.constants.map Constant.name).Nodup) :
    d.finish claims =
      { name := Message.nameOfPath d.path
        path := d.path
        short := d.header.short
        long := d.header.long
        fields := d.fields
        enums := Association.owners claims d.enumNames d.constants
        constants := Association.looseOf claims d.enumNames d.constants
        source := d.source } := by
  unfold finish
  dsimp only
  rw [Association.associate_eq h]

end Draft

end MessageDocs
