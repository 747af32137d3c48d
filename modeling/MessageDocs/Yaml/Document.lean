import MessageDocs.Yaml.Event

/-! # YAML documents

A document gives the events of a text with its anchors numbered and its aliases bound to numbers.
An alias must follow its anchor. A value is read at the events that begin with it; where an alias
stands, the events at its anchor are read instead.
-/

set_option autoImplicit false

namespace MessageDocs.Yaml

/-- A value's place in a document. -/
inductive Item where
  | scalar (tag : Option Tag) (plain : Bool) (text : Text)
  | alias (anchor : Nat)
  | sequenceStart (tag : Option Tag)
  | sequenceEnd
  | mappingStart (tag : Option Tag)
  | mappingEnd
  deriving DecidableEq, Repr

structure Document where
  items : List Item := []
  /-- The position of each numbered anchor; of two for one number the first entry counts. -/
  anchors : List (Nat × Nat) := []

namespace Document

/-! ## Binding aliases -/

/-- The numbers of the anchors seen so far, by name. An anchor's number is the number of names
known when it is met. -/
structure Binding where
  items : List Item := []
  names : List (Text × Nat) := []
  anchors : List (Nat × Nat) := []
  position : Nat := 0

namespace Binding

def bind (b : Binding) : Option Text → Binding
  | none => b
  | some name =>
    { b with
      names := Roster.put Prod.fst (name, b.names.length) b.names
      anchors := (b.names.length, b.position) :: b.anchors }

def push (b : Binding) (item : Item) : Binding :=
  { b with items := item :: b.items, position := b.position + 1 }

def add (b : Binding) : Event → Option Binding
  | .scalar anchor tag plain text => some ((b.bind anchor).push (.scalar tag plain text))
  | .alias name =>
    match Roster.find? Prod.fst b.names name with
    | some entry => some (b.push (.alias entry.2))
    | none => none
  | .sequenceStart anchor tag => some ((b.bind anchor).push (.sequenceStart tag))
  | .sequenceEnd => some (b.push .sequenceEnd)
  | .mappingStart anchor tag => some ((b.bind anchor).push (.mappingStart tag))
  | .mappingEnd => some (b.push .mappingEnd)

end Binding

def ofEvents? (events : List Event) : Option Document :=
  (events.foldlM Binding.add {}).map fun b => ⟨b.items.reverse, b.anchors⟩

def ofText? (t : Text) : Option Document :=
  (Event.ofText? t).bind ofEvents?

/-! ## Moving through a document -/

/-- The items at a value, at its anchor for an alias. -/
def resolve (d : Document) (items : List Item) : List Item :=
  match items with
  | .alias anchor :: _ =>
    match d.anchors.find? (·.1 = anchor) with
    | some entry => d.items.drop entry.2
    | none => []
  | _ => items

/-- The items after the value that begins here, `depth` collections being open already. -/
def skip : Nat → List Item → List Item
  | _, [] => []
  | depth, item :: rest =>
    match item with
    | .sequenceStart _ => skip (depth + 1) rest
    | .mappingStart _ => skip (depth + 1) rest
    | .sequenceEnd => if depth ≤ 1 then rest else skip (depth - 1) rest
    | .mappingEnd => if depth ≤ 1 then rest else skip (depth - 1) rest
    | _ => if depth = 0 then rest else skip depth rest

/-! ## Reading values -/

/-- The text of the scalar here. -/
def text? (d : Document) (items : List Item) : Option Text :=
  match d.resolve items with
  | .scalar _ _ text :: _ => some text
  | _ => none

/-- The texts of a sequence of scalars, from after its start. -/
def textsFrom? (d : Document) : List Item → Option (List Text)
  | [] => none
  | .sequenceEnd :: _ => some []
  | item :: rest =>
    match d.text? (item :: rest), textsFrom? d rest with
    | some text, some texts => some (text :: texts)
    | _, _ => none

/-- The texts of the sequence here; an empty plain scalar is an empty sequence. -/
def texts? (d : Document) (items : List Item) : Option (List Text) :=
  match d.resolve items with
  | .sequenceStart _ :: rest => d.textsFrom? rest
  | .scalar _ true [] :: _ => some []
  | _ => none

/-- The entries of a mapping with scalar keys, from after its start: each key with the items at
its value. -/
def entriesFrom? (d : Document) : Nat → List Item → Option (List (Text × List Item))
  | 0, _ => none
  | _, [] => none
  | _, .mappingEnd :: _ => some []
  | n + 1, item :: rest =>
    match d.text? (item :: rest), d.entriesFrom? n (skip 0 rest) with
    | some key, some entries => some ((key, rest) :: entries)
    | _, _ => none

/-- The entries of the mapping here; an empty plain scalar is an empty mapping, as is no value. -/
def entries? (d : Document) (items : List Item) : Option (List (Text × List Item)) :=
  match d.resolve items with
  | [] => some []
  | .mappingStart _ :: rest => d.entriesFrom? rest.length rest
  | .scalar _ true [] :: _ => some []
  | _ => none

/-! ## Values that may be absent -/

/-- The plain scalars that stand for no value. -/
def isNull (t : Text) : Bool :=
  t = "null".toList || t = "Null".toList || t = "NULL".toList || t = "~".toList

/-- The text here, or no text for an empty or null plain scalar without a tag. A scalar tagged as
null must be one. -/
def optionalText? (d : Document) (items : List Item) : Option (Option Text) :=
  match d.resolve items with
  | .scalar tag plain text :: _ =>
    if !plain then
      some (some text)
    else
      match tag with
      | some tag =>
        if tag = Tag.null then
          if isNull text then some none else none
        else
          some (some text)
      | none => if text = [] ∨ isNull text then some none else some (some text)
  | _ => none

/-- The word that selects one of several choices: the name in a local tag before no value, or the
scalar itself. -/
def choice? (d : Document) (items : List Item) : Option Text :=
  match d.resolve items with
  | .scalar tag plain text :: _ =>
    match tag.bind Tag.localName? with
    | some name => if plain ∧ (text = [] ∨ isNull text) then some name else none
    | none => some text
  | _ => none

end Document

end MessageDocs.Yaml
