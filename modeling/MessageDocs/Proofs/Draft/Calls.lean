import MessageDocs.Message.Schema
import MessageDocs.Proofs.Draft
import MessageDocs.Proofs.Schema.Remarks

/-! # Drafts under any sequence of calls

A draft may be filled in any order and goes on after a call that it refuses. What it holds is told
by the calls that it accepted.

* `Draft.perform` is one call, `Draft.after` the draft that goes on with it, `Draft.accepted` the
  calls of a sequence that are not refused.
* `Draft.HasDistinctNames` is what every call preserves.
* `Draft.perform_eq_error_iff`: a call is refused exactly when an accepted one has used its name.
-/

set_option autoImplicit false

namespace MessageDocs

namespace Declared

def kind : Declared → DeclarationKind
  | field _ => .field
  | constant _ => .constant

def name : Declared → Text
  | field f => f.name
  | constant c => c.name

def line : Declared → Nat
  | field f => f.line
  | constant c => c.line

theorem mem_fields {f : Field} {es : List Declared} : f ∈ fields es ↔ field f ∈ es := by
  rw [fields, List.mem_filterMap]
  constructor
  · rintro ⟨e, he, same⟩
    cases e <;> cases same
    exact he
  · exact fun h => ⟨field f, h, rfl⟩

theorem mem_constants {c : Constant} {es : List Declared} :
    c ∈ constants es ↔ constant c ∈ es := by
  rw [constants, List.mem_filterMap]
  constructor
  · rintro ⟨e, he, same⟩
    cases e <;> cases same
    exact he
  · exact fun h => ⟨constant c, h, rfl⟩

/-- The refusal of what has the kind and the name of an earlier declaration. -/
def duplicate (first : Declared) : DuplicateName :=
  ⟨first.kind, first.name, first.line⟩

end Declared

inductive Call where
  | source (text : Text)
  | descriptions (header : Header)
  | addField (f : Field)
  | addConstant (c : Constant)
  | declareEnum (name : Text)
  deriving DecidableEq, Repr

namespace Call

/-- What a call adds under a name that must be new. -/
def declared? : Call → Option Declared
  | addField f => some (.field f)
  | addConstant c => some (.constant c)
  | _ => none

/-- The enumeration that a call declares. -/
def enum? : Call → Option Text
  | declareEnum name => some name
  | _ => none

def declarations (calls : List Call) : List Declared :=
  calls.filterMap declared?

/-- The enumerations that some calls declare, in their order and with repetitions. -/
def enums (calls : List Call) : List Text :=
  calls.filterMap enum?

theorem declarations_cons (call : Call) (calls : List Call) :
    declarations (call :: calls) = call.declared?.toList ++ declarations calls := by
  rw [declarations, List.filterMap_cons]
  cases call.declared? <;> rfl

theorem enums_cons (call : Call) (calls : List Call) :
    enums (call :: calls) = call.enum?.toList ++ enums calls := by
  rw [enums, List.filterMap_cons]
  cases call.enum? <;> rfl

end Call

namespace Draft

def start (path : Path) : Draft :=
  { path := path }

/-! ## One call -/

def perform (d : Draft) : Call → Except DuplicateName Draft
  | .source text => .ok { d with source := text }
  | .descriptions header => .ok { d with header := header }
  | .addField f => d.addField f
  | .addConstant c => d.addConstant c
  | .declareEnum name => .ok (d.declareEnum name)

/-- The draft that goes on after a call, unchanged by one that it refuses. -/
def after (d : Draft) (call : Call) : Draft :=
  match d.perform call with
  | .ok d' => d'
  | .error _ => d

def afterAll (d : Draft) (calls : List Call) : Draft :=
  calls.foldl after d

/-- The calls of a sequence that are not refused, in their order. -/
def accepted : Draft → List Call → List Call
  | _, [] => []
  | d, call :: calls =>
    match d.perform call with
    | .ok d' => call :: accepted d' calls
    | .error _ => accepted d calls

/-- Whether no name of a draft stands twice among those of its kind. -/
structure HasDistinctNames (d : Draft) : Prop where
  fields : (d.fields.map Field.name).Nodup
  enums : d.enumNames.Nodup
  constants : (d.constants.map Constant.name).Nodup

theorem addField_eq_ok_iff {d d' : Draft} {f : Field} :
    d.addField f = .ok d' ↔
      f.name ∉ d.fields.map Field.name ∧ d' = { d with fields := d.fields ++ [f] } := by
  rw [addField, ← find?_eq_none_iff]
  cases Roster.find? Field.name d.fields f.name <;> simp [eq_comm]

theorem perform_eq_ok {d d' : Draft} {call : Call} (h : d.perform call = .ok d') :
    d'.path = d.path ∧ d'.fields = d.fields ++ Declared.fields call.declared?.toList ∧
      d'.constants = d.constants ++ Declared.constants call.declared?.toList ∧
      d'.enumNames = call.enum?.toList.foldl addNew d.enumNames := by
  cases call with
  | source text =>
    cases h
    simp [Call.declared?, Call.enum?]
  | descriptions header =>
    cases h
    simp [Call.declared?, Call.enum?]
  | addField f =>
    obtain ⟨-, rfl⟩ := addField_eq_ok_iff.mp h
    simp [Call.declared?, Call.enum?]
  | addConstant c =>
    obtain ⟨-, rfl⟩ := addConstant_eq_ok_iff.mp h
    simp [Call.declared?, Call.enum?]
  | declareEnum name =>
    cases h
    simp [Call.declared?, Call.enum?, declareEnum_eq]

/-- A name is found in a roster exactly under the one entry that has it. -/
theorem find?_eq_some_iff {α : Type} {nameOf : α → Text} {roster : List α}
    (distinct : (roster.map nameOf).Nodup) {name : Text} {entry : α} :
    Roster.find? nameOf roster name = some entry ↔ entry ∈ roster ∧ nameOf entry = name := by
  constructor
  · intro h
    exact ⟨List.mem_of_find?_eq_some h, by simpa using List.find?_some h⟩
  · rintro ⟨listed, rfl⟩
    cases found : Roster.find? nameOf roster (nameOf entry) with
    | none => exact absurd (List.mem_map_of_mem listed) (find?_eq_none_iff.mp found)
    | some other =>
      have same : nameOf other = nameOf entry := by simpa using List.find?_some found
      rw [List.inj_on_of_nodup_map distinct (List.mem_of_find?_eq_some found) listed same]

/-- The entry that a name is refused for is the one that has it. -/
theorem exists_find?_iff {α : Type} {nameOf : α → Text} {lineOf : α → Nat} {roster : List α}
    (distinct : (roster.map nameOf).Nodup) {kind : DeclarationKind} {name : Text}
    {e : DuplicateName} :
    (∃ first, Roster.find? nameOf roster name = some first ∧ ⟨kind, name, lineOf first⟩ = e) ↔
      ∃ first ∈ roster, nameOf first = name ∧ e = ⟨kind, nameOf first, lineOf first⟩ := by
  simp only [find?_eq_some_iff distinct, and_assoc]
  refine exists_congr fun first => and_congr_right fun _ => and_congr_right fun same => ?_
  rw [same, eq_comm]

theorem addField_eq_error_iff {d : Draft} (distinct : (d.fields.map Field.name).Nodup) {f : Field}
    {e : DuplicateName} :
    d.addField f = .error e ↔
      ∃ first ∈ d.fields, first.name = f.name ∧ e = (Declared.field first).duplicate := by
  refine Iff.trans ?_ (exists_find?_iff distinct)
  rw [addField]
  cases Roster.find? Field.name d.fields f.name <;> simp [Declared.line]

theorem addConstant_eq_error_iff {d : Draft} (distinct : (d.constants.map Constant.name).Nodup)
    {c : Constant} {e : DuplicateName} :
    d.addConstant c = .error e ↔
      ∃ first ∈ d.constants, first.name = c.name ∧ e = (Declared.constant first).duplicate := by
  refine Iff.trans ?_ (exists_find?_iff distinct)
  rw [addConstant]
  cases Roster.find? Constant.name d.constants c.name <;> simp [Declared.line]

/-- A call is refused exactly when the draft holds something of its kind with its name. -/
theorem perform_eq_error_iff {d : Draft} (distinct : d.HasDistinctNames) {call : Call}
    {e : DuplicateName} :
    d.perform call = .error e ↔ ∃ new ∈ call.declared?,
      ∃ first ∈ d.fields.map Declared.field ++ d.constants.map Declared.constant,
        first.kind = new.kind ∧ first.name = new.name ∧ e = first.duplicate := by
  cases call with
  | source text => simp [perform, Call.declared?]
  | descriptions header => simp [perform, Call.declared?]
  | declareEnum name => simp [perform, Call.declared?]
  | addField f =>
    rw [perform, addField_eq_error_iff distinct.fields]
    simp [Call.declared?, Declared.kind, Declared.name, or_and_right, exists_or]
  | addConstant c =>
    rw [perform, addConstant_eq_error_iff distinct.constants]
    simp [Call.declared?, Declared.kind, Declared.name, or_and_right, exists_or]

/-- An accepted call keeps the names of a draft apart. -/
theorem HasDistinctNames.perform {d d' : Draft} (distinct : d.HasDistinctNames) {call : Call}
    (h : d.perform call = .ok d') : d'.HasDistinctNames := by
  cases call with
  | source text =>
    cases h
    exact ⟨distinct.fields, distinct.enums, distinct.constants⟩
  | descriptions header =>
    cases h
    exact ⟨distinct.fields, distinct.enums, distinct.constants⟩
  | addField f =>
    obtain ⟨new, rfl⟩ := addField_eq_ok_iff.mp h
    refine ⟨?_, distinct.enums, distinct.constants⟩
    rw [List.map_append, List.map_singleton]
    exact nodup_append_singleton new distinct.fields
  | addConstant c =>
    obtain ⟨new, rfl⟩ := addConstant_eq_ok_iff.mp h
    refine ⟨distinct.fields, distinct.enums, ?_⟩
    rw [accept_constant_constants, List.map_append, List.map_singleton]
    exact nodup_append_singleton new distinct.constants
  | declareEnum name =>
    cases h
    rw [declareEnum_eq]
    exact ⟨distinct.fields, nodup_addNew distinct.enums name, distinct.constants⟩

theorem HasDistinctNames.after {d : Draft} (distinct : d.HasDistinctNames) (call : Call) :
    (d.after call).HasDistinctNames := by
  unfold Draft.after
  split
  · next d' h => exact distinct.perform h
  · exact distinct

/-! ## A run of calls -/

theorem HasDistinctNames.afterAll {d : Draft} (distinct : d.HasDistinctNames)
    (calls : List Call) : (d.afterAll calls).HasDistinctNames := by
  induction calls generalizing d with
  | nil => exact distinct
  | cons call calls ih => exact ih (distinct.after call)

theorem hasDistinctNames_start (path : Path) : (start path).HasDistinctNames :=
  ⟨List.nodup_nil, List.nodup_nil, List.nodup_nil⟩

@[simp] theorem afterAll_cons (d : Draft) (call : Call) (calls : List Call) :
    d.afterAll (call :: calls) = (d.after call).afterAll calls := rfl

/-- A call is accepted and counts, or it is refused and might as well be left out. -/
theorem accepted_cons_cases (d : Draft) (call : Call) (calls : List Call) :
    (d.perform call = .ok (d.after call) ∧
      d.accepted (call :: calls) = call :: (d.after call).accepted calls) ∨
    ((∃ e, d.perform call = .error e) ∧ d.after call = d ∧
      d.accepted (call :: calls) = d.accepted calls) := by
  unfold after
  rw [accepted]
  cases d.perform call with
  | ok d' => exact Or.inl ⟨rfl, rfl⟩
  | error e => exact Or.inr ⟨⟨e, rfl⟩, rfl, rfl⟩

/-- What a draft holds is told by the calls that were accepted. -/
theorem afterAll_spec (d : Draft) (calls : List Call) :
    (d.afterAll calls).path = d.path ∧
      (d.afterAll calls).fields =
        d.fields ++ Declared.fields (Call.declarations (d.accepted calls)) ∧
      (d.afterAll calls).constants =
        d.constants ++ Declared.constants (Call.declarations (d.accepted calls)) ∧
      (d.afterAll calls).enumNames =
        (Call.enums (d.accepted calls)).foldl addNew d.enumNames := by
  induction calls generalizing d with
  | nil => simp [afterAll, accepted, Call.declarations, Call.enums]
  | cons call calls ih =>
    obtain ⟨path, fields, constants, enums⟩ := ih (d.after call)
    rw [afterAll_cons, path, fields, constants, enums]
    rcases accepted_cons_cases d call calls with ⟨ok, accepted⟩ | ⟨-, unchanged, accepted⟩
    · obtain ⟨path, fields, constants, enums⟩ := perform_eq_ok ok
      rw [accepted, path, fields, constants, enums, Call.declarations_cons, Call.enums_cons,
        Declared.fields_append, Declared.constants_append, List.foldl_append]
      simp only [List.append_assoc, and_self]
    · rw [accepted, unchanged]
      exact ⟨rfl, rfl, rfl, rfl⟩

/-- A sequence may be read without the calls that are refused. -/
theorem afterAll_accepted (d : Draft) (calls : List Call) :
    d.afterAll (d.accepted calls) = d.afterAll calls ∧
      d.accepted (d.accepted calls) = d.accepted calls := by
  induction calls generalizing d with
  | nil => exact ⟨rfl, rfl⟩
  | cons call calls ih =>
    obtain ⟨same, again⟩ := ih (d.after call)
    rcases accepted_cons_cases d call calls with ⟨ok, accepted⟩ | ⟨-, unchanged, accepted⟩
    · rw [accepted, afterAll_cons, afterAll_cons, same]
      refine ⟨rfl, ?_⟩
      rcases accepted_cons_cases d call ((d.after call).accepted calls) with
        ⟨-, accepted⟩ | ⟨⟨e, refused⟩, -⟩
      · rw [accepted, again]
      · rw [ok] at refused
        cases refused
    · -- The draft is as before the call, and so the hypothesis is about this very draft.
      rw [accepted, afterAll_cons, unchanged]
      rw [unchanged] at same again
      exact ⟨same, again⟩

/-! ## Finished messages -/

/-- The message of a draft has the names of the draft, and each of its constants once. -/
theorem HasDistinctNames.finish {d : Draft} (distinct : d.HasDistinctNames)
    (claims : Text → Text → Bool) :
    (d.finish claims).fields = d.fields ∧
      (d.finish claims).enums.map Enumeration.name = d.enumNames ∧
      (d.finish claims).allConstants.Perm d.constants := by
  rw [finish_eq claims distinct.constants]
  exact ⟨rfl, Association.map_name_owners _ _ _,
    Association.owners_append_loose_perm distinct.enums d.constants⟩

/-- What the draft holds after some calls are the declarations of those it accepted. -/
theorem mem_afterAll_start_iff {path : Path} {calls : List Call} {e : Declared} :
    e ∈ ((start path).afterAll calls).fields.map Declared.field ++
        ((start path).afterAll calls).constants.map Declared.constant ↔
      e ∈ Call.declarations ((start path).accepted calls) := by
  obtain ⟨-, fields, constants, -⟩ := afterAll_spec (start path) calls
  rw [fields, constants, start, List.nil_append, List.nil_append, ← start]
  cases e with
  | field f => simp [← Declared.mem_fields]
  | constant c => simp [← Declared.mem_constants]

end Draft

end MessageDocs
