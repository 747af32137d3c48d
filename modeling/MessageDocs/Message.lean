import MessageDocs.Path

/-! # Messages

A message is what one schema file describes: its fields, the enumerations that fields refer to,
and the constants that belong to no enumeration. Values and bounds stay the text they were
written as.
-/

set_option autoImplicit false

namespace MessageDocs

/-- A typed member of a message, with the metadata of its comment. -/
structure Field where
  name : Text
  typeName : Text
  description : Text := []
  unit : Option Text := none
  enumTags : List Text := []
  minimum : Option Text := none
  maximum : Option Text := none
  invalid : Option Text := none
  /-- The line of the declaration, counted from one. -/
  line : Nat
  deriving DecidableEq, Repr

namespace Field

/-- Whether the type has an array suffix, as in `float32[3]`. -/
def isArray (f : Field) : Bool :=
  Text.endsWith "]" f.typeName && f.typeName.contains '['

/-- The type without its array suffix. -/
def baseType (f : Field) : Text :=
  f.typeName.takeWhile (· != '[')

def hasRange (f : Field) : Bool :=
  f.minimum.isSome || f.maximum.isSome

end Field

/-- A typed name for a value. -/
structure Constant where
  name : Text
  typeName : Text
  value : Text
  comment : Option Text := none
  line : Nat
  deriving DecidableEq, Repr

/-- A name that fields refer to, with the constants that are its values. -/
structure Enumeration where
  name : Text
  values : List Constant := []
  deriving DecidableEq, Repr

/-- The model of one schema file. -/
structure Message where
  name : Text
  path : Path
  short : Text
  long : Text
  fields : List Field
  enums : List Enumeration
  /-- The constants that belong to no enumeration. -/
  constants : List Constant
  /-- The text of the schema file. -/
  source : Text
  deriving DecidableEq, Repr

namespace Message

/-- Whether the schema lies under a directory named `versioned`. -/
def isVersioned (m : Message) : Bool :=
  m.path.components.contains (.name "versioned")

/-- The file name of the message's page. -/
def pageName (m : Message) : Text :=
  m.name ++ ".md"

/-- The name that a schema's path gives to its message. -/
def nameOfPath (p : Path) : Text :=
  p.fileStem?.getD []

end Message

end MessageDocs
