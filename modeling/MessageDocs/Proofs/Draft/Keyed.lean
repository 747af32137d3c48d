import MessageDocs.Proofs.Draft.Calls

/-! # Drafts with maps

A draft lists its enumerations and constants and looks names up in the lists. A builder that keeps
them in maps beside their keys could in principle file an entry under another name than its own; it
never does, and holds the same as the draft.

* `KeyedDraft` is such a builder, `KeyedDraft.finish` its message.
* `KeyedDraft.afterAll_keyed`, `finish_keyed`: it goes through every sequence of calls as the draft
  does, so that each key is the name of the entry it stands for.
* `KeyedDraft.built_spec`: what any sequence of calls builds.
-/

set_option autoImplicit false

namespace MessageDocs

/-! ## Maps in order of insertion -/

/-- A map that lists its entries in the order in which their keys came first. -/
abbrev KeyedMap (α : Type) := List (Text × α)

namespace KeyedMap

variable {α : Type}

def get? (map : KeyedMap α) (key : Text) : Option α :=
  (map.find? fun entry => entry.1 = key).map Prod.snd

/-- The map with a value under a key, in the place of the value that the key had. -/
def insert (key : Text) (value : α) : KeyedMap α → KeyedMap α
  | [] => [(key, value)]
  | entry :: rest =>
    if entry.1 = key then (key, value) :: rest else entry :: insert key value rest

def modify (key : Text) (change : α → α) (map : KeyedMap α) : KeyedMap α :=
  map.map fun entry => if entry.1 = key then (entry.1, change entry.2) else entry

end KeyedMap

namespace Roster

variable {α β : Type} {nameOf : α → Text} {view : α → β}

/-- The map in which every entry of a roster stands under its own name. -/
def keyed (nameOf : α → Text) (view : α → β) (roster : List α) : KeyedMap β :=
  roster.map fun entry => (nameOf entry, view entry)

theorem map_fst_keyed (roster : List α) : (keyed nameOf view roster).map Prod.fst =
    roster.map nameOf := by
  rw [keyed, List.map_map]
  rfl

theorem get?_keyed (roster : List α) (name : Text) :
    KeyedMap.get? (keyed nameOf view roster) name = (find? nameOf roster name).map view := by
  rw [KeyedMap.get?, keyed, List.find?_map, Option.map_map, find?]
  rfl

theorem insert_keyed (nameOf : α → Text) (view : α → β) (entry : α) (roster : List α) :
    KeyedMap.insert (nameOf entry) (view entry) (keyed nameOf view roster) =
      keyed nameOf view (put nameOf entry roster) := by
  induction roster with
  | nil => rfl
  | cons first rest ih =>
    rw [keyed, List.map_cons, ← keyed, KeyedMap.insert, put, ih]
    split
    · rfl
    · rfl

end Roster

/-! ## The builder -/

structure KeyedEnumeration where
  name : Text
  values : KeyedMap Constant := []
  deriving DecidableEq, Repr

structure KeyedMessage where
  name : Text
  path : Path
  short : Text
  long : Text
  fields : List Field
  enums : KeyedMap KeyedEnumeration
  constants : KeyedMap Constant
  source : Text
  deriving DecidableEq, Repr

/-- A draft whose enumerations and constants are kept under their names. -/
structure KeyedDraft where
  path : Path
  header : Header := {}
  fields : List Field := []
  enums : KeyedMap KeyedEnumeration := []
  constants : KeyedMap Constant := []
  source : Text := []
  deriving DecidableEq, Repr

def KeyedEnumeration.insert (c : Constant) (e : KeyedEnumeration) : KeyedEnumeration :=
  { e with values := KeyedMap.insert c.name c e.values }

def Enumeration.keyed (e : Enumeration) : KeyedEnumeration :=
  { name := e.name, values := Roster.keyed Constant.name id e.values }

def Message.keyed (m : Message) : KeyedMessage where
  name := m.name
  path := m.path
  short := m.short
  long := m.long
  fields := m.fields
  enums := Roster.keyed Enumeration.name Enumeration.keyed m.enums
  constants := Roster.keyed Constant.name id m.constants
  source := m.source

def Draft.keyed (d : Draft) : KeyedDraft where
  path := d.path
  header := d.header
  fields := d.fields
  enums := Roster.keyed id (fun name => { name := name }) d.enumNames
  constants := Roster.keyed Constant.name id d.constants
  source := d.source

/-- Whether every key of a message is the name of what stands under it. -/
structure KeyedMessage.KeysAreNames (m : KeyedMessage) : Prop where
  enums : ∀ entry ∈ m.enums, entry.1 = entry.2.name
  values : ∀ entry ∈ m.enums, ∀ value ∈ entry.2.values, value.1 = value.2.name
  constants : ∀ entry ∈ m.constants, entry.1 = entry.2.name

theorem Message.keysAreNames_keyed (m : Message) : m.keyed.KeysAreNames where
  enums := by
    intro entry he
    obtain ⟨e, -, rfl⟩ := List.mem_map.mp he
    rfl
  values := by
    intro entry he value hv
    obtain ⟨e, -, rfl⟩ := List.mem_map.mp he
    obtain ⟨c, -, rfl⟩ := List.mem_map.mp hv
    rfl
  constants := by
    intro entry he
    obtain ⟨c, -, rfl⟩ := List.mem_map.mp he
    rfl

namespace KeyedDraft

/-! ## Calls -/

def addField (d : KeyedDraft) (f : Field) : Except DuplicateName KeyedDraft :=
  match Roster.find? Field.name d.fields f.name with
  | some first => .error ⟨.field, f.name, first.line⟩
  | none => .ok { d with fields := d.fields ++ [f] }

def addConstant (d : KeyedDraft) (c : Constant) : Except DuplicateName KeyedDraft :=
  match KeyedMap.get? d.constants c.name with
  | some first => .error ⟨.constant, c.name, first.line⟩
  | none => .ok { d with constants := KeyedMap.insert c.name c d.constants }

def declareEnum (d : KeyedDraft) (name : Text) : KeyedDraft :=
  match KeyedMap.get? d.enums name with
  | some _ => d
  | none => { d with enums := KeyedMap.insert name { name := name } d.enums }

def perform (d : KeyedDraft) : Call → Except DuplicateName KeyedDraft
  | .source text => .ok { d with source := text }
  | .descriptions header => .ok { d with header := header }
  | .addField f => d.addField f
  | .addConstant c => d.addConstant c
  | .declareEnum name => .ok (d.declareEnum name)

def after (d : KeyedDraft) (call : Call) : KeyedDraft :=
  match d.perform call with
  | .ok d' => d'
  | .error _ => d

def afterAll (d : KeyedDraft) (calls : List Call) : KeyedDraft :=
  calls.foldl after d

theorem perform_keyed (d : Draft) (call : Call) :
    d.keyed.perform call = (d.perform call).map Draft.keyed := by
  cases call with
  | source text => rfl
  | descriptions header => rfl
  | addField f =>
    change d.keyed.addField f = (d.addField f).map Draft.keyed
    rw [addField, Draft.addField, Draft.keyed]
    dsimp only
    cases Roster.find? Field.name d.fields f.name <;> rfl
  | addConstant c =>
    change d.keyed.addConstant c = (d.addConstant c).map Draft.keyed
    rw [addConstant, Draft.addConstant, Draft.keyed]
    dsimp only
    rw [Roster.get?_keyed]
    cases found : Roster.find? Constant.name d.constants c.name with
    | none =>
      have inserted := Roster.insert_keyed Constant.name id c d.constants
      rw [Association.put_eq_append (Draft.find?_eq_none_iff.mp found)] at inserted
      exact congrArg (fun constants => Except.ok { d.keyed with constants := constants }) inserted
    | some first => rfl
  | declareEnum name =>
    change Except.ok (d.keyed.declareEnum name) = Except.ok (d.declareEnum name).keyed
    rw [declareEnum, Draft.declareEnum, Draft.keyed]
    dsimp only
    rw [Roster.get?_keyed]
    cases found : Roster.find? id d.enumNames name with
    | none =>
      have new : id name ∉ d.enumNames.map id := Draft.find?_eq_none_iff.mp found
      have inserted := Roster.insert_keyed id
        (fun name => ({ name := name } : KeyedEnumeration)) name d.enumNames
      rw [Association.put_eq_append new] at inserted
      rw [List.map_id, id_eq] at new
      rw [if_neg (by simpa using new)]
      exact congrArg (fun enums => Except.ok { d.keyed with enums := enums }) inserted
    | some first =>
      have listed : name ∈ d.enumNames := by
        have same : first = name := by simpa using List.find?_some found
        exact same ▸ List.mem_of_find?_eq_some found
      rw [if_pos (by simpa using listed)]
      rfl

theorem after_keyed (d : Draft) (call : Call) : d.keyed.after call = (d.after call).keyed := by
  rw [after, Draft.after, perform_keyed]
  cases d.perform call <;> rfl

theorem afterAll_keyed (d : Draft) (calls : List Call) :
    d.keyed.afterAll calls = (d.afterAll calls).keyed := by
  induction calls generalizing d with
  | nil => rfl
  | cons call calls ih =>
    rw [Draft.afterAll_cons, ← ih, ← after_keyed]
    rfl

/-! ## Finishing -/

/-- Enumerations and loose constants while the constants are handed out. -/
structure Shares where
  enums : KeyedMap KeyedEnumeration
  loose : KeyedMap Constant
  deriving DecidableEq, Repr

/-- The shares after one more entry of the map of constants, which is looked up by its key. -/
def Shares.place (claims : Text → Text → Bool) (s : Shares) (entry : Text × Constant) : Shares :=
  match Association.longest? ((s.enums.map Prod.fst).filter (claims · entry.1)) with
  | some owner =>
    { s with enums := KeyedMap.modify owner (KeyedEnumeration.insert entry.2) s.enums }
  | none => { s with loose := KeyedMap.insert entry.1 entry.2 s.loose }

def associate (claims : Text → Text → Bool) (enums : KeyedMap KeyedEnumeration)
    (constants : KeyedMap Constant) : Shares :=
  constants.foldl (Shares.place claims) ⟨enums, []⟩

def finish (d : KeyedDraft) (claims : Text → Text → Bool) : KeyedMessage :=
  let shares := associate claims d.enums d.constants
  { name := Message.nameOfPath d.path
    path := d.path
    short := d.header.short
    long := d.header.long
    fields := d.fields
    enums := shares.enums
    constants := shares.loose
    source := d.source }

def sharesOf (s : Association.Shares) : Shares :=
  ⟨Roster.keyed Enumeration.name Enumeration.keyed s.enums, Roster.keyed Constant.name id s.loose⟩

theorem keyed_receive (owner : Text) (c : Constant) (enums : List Enumeration) :
    KeyedMap.modify owner (KeyedEnumeration.insert c)
        (Roster.keyed Enumeration.name Enumeration.keyed enums) =
      Roster.keyed Enumeration.name Enumeration.keyed (Association.receive owner c enums) := by
  rw [KeyedMap.modify, Roster.keyed, Roster.keyed, Association.receive, List.map_map, List.map_map]
  apply List.map_congr_left
  intro e _
  simp only [Function.comp_apply]
  split
  · next same =>
    have inserted := Roster.insert_keyed Constant.name id c e.values
    exact congrArg (fun values => (e.name, (⟨e.name, values⟩ : KeyedEnumeration))) inserted
  · rfl

/-- One constant goes the same way in both, unless a loose one already has its name. -/
theorem place_sharesOf {claims : Text → Text → Bool} {s : Association.Shares} {c : Constant}
    (new : c.name ∉ s.loose.map Constant.name) :
    (sharesOf s).place claims (c.name, c) = sharesOf (s.place claims c) := by
  have owner_eq :
      Association.longest? (((sharesOf s).enums.map Prod.fst).filter (claims · c.name)) =
        Association.owner? claims s.enums c.name := by
    rw [sharesOf, Roster.map_fst_keyed, Association.owner?]
  rw [Shares.place, Association.Shares.place]
  dsimp only
  rw [owner_eq]
  cases Association.owner? claims s.enums c.name with
  | none =>
    have inserted := Roster.insert_keyed Constant.name id c s.loose
    rw [Association.put_eq_append new] at inserted
    exact congrArg (Shares.mk _) inserted
  | some owner => exact congrArg (Shares.mk · _) (keyed_receive owner c s.enums)

theorem foldl_place_sharesOf (claims : Text → Text → Bool) {constants : List Constant}
    (distinct : (constants.map Constant.name).Nodup) {s : Association.Shares}
    (new : ∀ c ∈ constants, c.name ∉ s.loose.map Constant.name) :
    (Roster.keyed Constant.name id constants).foldl (Shares.place claims) (sharesOf s) =
      sharesOf (constants.foldl (Association.Shares.place claims) s) := by
  induction constants generalizing s with
  | nil => rfl
  | cons c constants ih =>
    rw [List.map_cons, List.nodup_cons] at distinct
    obtain ⟨apart, distinct⟩ := distinct
    obtain ⟨here, new⟩ := List.forall_mem_cons.mp new
    -- A constant becomes loose under its own name only, so the later ones are still new.
    have placed : ∀ other ∈ constants,
        other.name ∉ (s.place claims c).loose.map Constant.name := by
      intro other ho
      have listed : other.name ∈ constants.map Constant.name := List.mem_map_of_mem ho
      rw [Association.Shares.place]
      split
      · exact new other ho
      · rw [List.map_append, List.map_singleton, List.mem_append, List.mem_singleton, not_or]
        refine ⟨new other ho, ?_⟩
        intro same
        exact apart (same ▸ listed)
    rw [List.foldl_cons, ← ih distinct placed, ← place_sharesOf here]
    rfl

theorem finish_keyed {d : Draft} (distinct : d.HasDistinctNames) (claims : Text → Text → Bool) :
    d.keyed.finish claims = (d.finish claims).keyed := by
  have shares := foldl_place_sharesOf claims distinct.constants
    (s := ⟨d.enumNames.map fun name => { name := name }, []⟩) (fun _ _ => List.not_mem_nil)
  have enums : Roster.keyed Enumeration.name Enumeration.keyed
      (d.enumNames.map fun name => { name := name }) = d.keyed.enums := by
    rw [Roster.keyed, List.map_map]
    rfl
  rw [sharesOf, enums] at shares
  have built : associate claims d.keyed.enums d.keyed.constants = sharesOf
      (Association.associate claims (d.enumNames.map fun name => { name := name }) d.constants) :=
    shares
  rw [finish, built]
  rfl

/-! ## What is built -/

def start (path : Path) : KeyedDraft :=
  { path := path }

end KeyedDraft

namespace Draft

/-- **What any sequence of calls builds.** The fields, the enumerations and the constants of the
message have distinct names, every key is the name of its entry, and each accepted constant is there
once. A call is refused exactly when an accepted one before it has used its name in its kind, and is
told of that one; the refused calls might as well be left out. -/
theorem built_spec (path : Path) (calls : List Call) (claims : Text → Text → Bool) :
    let kept := (start path).accepted calls
    let m := ((start path).afterAll calls).finish claims
    let built := ((KeyedDraft.start path).afterAll calls).finish claims
    ((m.fields.map Field.name).Nodup ∧ (m.enums.map Enumeration.name).Nodup ∧
      (m.allConstants.map Constant.name).Nodup) ∧
    (built = m.keyed ∧ built.KeysAreNames) ∧
    (m.fields = Declared.fields (Call.declarations kept) ∧
      m.enums.map Enumeration.name = mentioned (Call.enums kept) ∧
      m.allConstants.Perm (Declared.constants (Call.declarations kept)) ∧
      ∀ c, .addConstant c ∈ kept → m.allConstants.count c = 1) ∧
    (∀ before call later, calls = before ++ call :: later → ∀ e,
      ((start path).afterAll before).perform call = .error e ↔
        ∃ new ∈ call.declared?, ∃ first ∈ Call.declarations ((start path).accepted before),
          first.kind = new.kind ∧ first.name = new.name ∧ e = first.duplicate) ∧
    ((start path).afterAll kept).finish claims = m ∧ (start path).accepted kept = kept := by
  intro kept m built
  have distinct : ∀ calls, ((start path).afterAll calls).HasDistinctNames :=
    (hasDistinctNames_start path).afterAll
  obtain ⟨-, fields, constants, enums⟩ := afterAll_spec (start path) calls
  obtain ⟨messageFields, messageEnums, perm⟩ := (distinct calls).finish claims
  have names : (m.allConstants.map Constant.name).Nodup :=
    (perm.map Constant.name).nodup_iff.mpr (distinct calls).constants
  have keyed : built = m.keyed := by
    have ran := KeyedDraft.afterAll_keyed (start path) calls
    have finished := KeyedDraft.finish_keyed (distinct calls) claims
    rw [← ran] at finished
    exact finished
  rw [constants] at perm
  refine ⟨⟨?_, ?_, names⟩, ⟨keyed, ?_⟩, ⟨?_, ?_, perm, ?_⟩, ?_, ?_, ?_⟩
  · exact messageFields ▸ (distinct calls).fields
  · exact messageEnums ▸ (distinct calls).enums
  · exact keyed ▸ m.keysAreNames_keyed
  · exact messageFields.trans fields
  · exact messageEnums.trans enums
  · intro c accepted
    have declared : Declared.constant c ∈ Call.declarations kept :=
      List.mem_filterMap.mpr ⟨_, accepted, rfl⟩
    have listed : c ∈ m.allConstants := perm.mem_iff.mpr (Declared.mem_constants.mpr declared)
    exact List.count_eq_one_of_mem (List.Nodup.of_map _ names) listed
  · intro before call later _ e
    rw [perform_eq_error_iff (distinct before)]
    simp only [mem_afterAll_start_iff]
  · exact congrArg (finish · claims) (afterAll_accepted (start path) calls).1
  · exact (afterAll_accepted (start path) calls).2

/-- A constant of an enumeration, and a field and a constant that are declared again. -/
def repeatedCalls : List Call :=
  [.declareEnum "MODE".toList, .addConstant ⟨"MODE_A", "u8", "1", none, 1⟩,
    .addField { name := "x", typeName := "u8", line := 2 },
    .addConstant ⟨"MODE_A", "u8", "2", none, 3⟩,
    .addField { name := "x", typeName := "u16", line := 4 }]

theorem repeatedCalls_built :
    ((start ⟨"A.msg"⟩).afterAll (repeatedCalls.take 3)).perform
        (.addConstant ⟨"MODE_A", "u8", "2", none, 3⟩) = .error ⟨.constant, "MODE_A", 1⟩ ∧
      ((start ⟨"A.msg"⟩).afterAll (repeatedCalls.take 3)).finish Matching.byPrefix.claims =
        ((start ⟨"A.msg"⟩).afterAll repeatedCalls).finish Matching.byPrefix.claims ∧
      (((start ⟨"A.msg"⟩).afterAll repeatedCalls).finish
        Matching.byPrefix.claims).allConstants.count ⟨"MODE_A", "u8", "1", none, 1⟩ = 1 := by
  obtain ⟨-, -, ⟨-, -, -, once⟩, refused, same, -⟩ :=
    built_spec ⟨"A.msg"⟩ repeatedCalls Matching.byPrefix.claims
  have kept : (start ⟨"A.msg"⟩).accepted repeatedCalls = repeatedCalls.take 3 := by decide +kernel
  rw [kept] at same once
  refine ⟨(refused (repeatedCalls.take 3) _ (repeatedCalls.drop 4) rfl _).mpr ?_, same,
    once _ (by decide +kernel)⟩
  refine ⟨_, rfl, .constant ⟨"MODE_A", "u8", "1", none, 1⟩, ?_, rfl, rfl, rfl⟩
  decide +kernel

end Draft

end MessageDocs
