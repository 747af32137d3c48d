import MessageDocs.Association
import MessageDocs.Header

/-! # Drafts of messages

A draft collects the declarations of a schema in the order of their lines. It refuses a second
field or constant of the same name; the enumerations are only names until `Draft.finish`
distributes the constants.
-/

set_option autoImplicit false

namespace MessageDocs

/-- What a name was declared as. -/
inductive DeclarationKind where
  | field
  | constant
  deriving DecidableEq, Repr

def DeclarationKind.word : DeclarationKind → Text
  | field => "field"
  | constant => "constant"

/-- A name that the same schema has already declared. -/
structure DuplicateName where
  kind : DeclarationKind
  name : Text
  firstLine : Nat
  deriving DecidableEq, Repr

namespace DuplicateName

def message (d : DuplicateName) : Text :=
  "duplicate " ++ d.kind.word ++ " '" ++ d.name ++ "' (first declared on line " ++
    Text.ofNat d.firstLine ++ ")"

def help (d : DuplicateName) : Text :=
  match d.kind with
  | .field => "Field names must be unique"
  | .constant => "Constant names must be unique"

end DuplicateName

/-- A message whose schema is still being read. -/
structure Draft where
  path : Path
  header : Header := {}
  fields : List Field := []
  /-- The enumerations in the order of their first reference. -/
  enumNames : List Text := []
  constants : List Constant := []
  source : Text := []
  deriving DecidableEq, Repr

namespace Draft

def addField (d : Draft) (f : Field) : Except DuplicateName Draft :=
  match Roster.find? Field.name d.fields f.name with
  | some first => .error ⟨.field, f.name, first.line⟩
  | none => .ok { d with fields := d.fields ++ [f] }

def addConstant (d : Draft) (c : Constant) : Except DuplicateName Draft :=
  match Roster.find? Constant.name d.constants c.name with
  | some first => .error ⟨.constant, c.name, first.line⟩
  | none => .ok { d with constants := d.constants ++ [c] }

/-- The draft with an enumeration that it need not know yet. -/
def declareEnum (d : Draft) (name : Text) : Draft :=
  if d.enumNames.contains name then d else { d with enumNames := d.enumNames ++ [name] }

def declareEnums (d : Draft) (names : List Text) : Draft :=
  names.foldl declareEnum d

/-- The finished message, its constants distributed by a rule. -/
def finish (d : Draft) (claims : Text → Text → Bool) : Message :=
  let shares := Association.associate claims (d.enumNames.map fun n => { name := n }) d.constants
  { name := Message.nameOfPath d.path
    path := d.path
    short := d.header.short
    long := d.header.long
    fields := d.fields
    enums := shares.enums
    constants := shares.loose
    source := d.source }

end Draft

end MessageDocs
