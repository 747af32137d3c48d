import MessageDocs.Declaration
import MessageDocs.Header
import MessageDocs.Message

/-! # Messages as schemas

A message is written as a schema that declares it again: the descriptions as header comments, an
empty line, the fields, the values of the enumerations, and the constants that belong to none. The
metadata of a field becomes the tags and the description of its comment.
-/

set_option autoImplicit false

namespace MessageDocs

/-! ## Headers -/

namespace Header

/-- The lines of the long description, each of which ends with a line feed. -/
def longLines (h : Header) : List Text :=
  (Text.split (· == '\n') h.long).dropLast

/-- The comment lines of the descriptions; a long one cannot stand without a short one. -/
def print (h : Header) : List Text :=
  if h.short = [] then
    []
  else if h.long = [] then
    ["# " ++ h.short]
  else
    ("# " ++ h.short) :: "#" :: h.longLines.map fun line => "# " ++ line

end Header

/-! ## Declarations -/

namespace Field

def tag (inside : Text) : Text :=
  "[" ++ inside ++ "]"

def unitTag (f : Field) : List Text :=
  f.unit.toList.map tag

def enumTag (f : Field) : List Text :=
  if f.enumTags = [] then [] else [tag (Text.join " " ("@enum" :: f.enumTags))]

def rangeTag (f : Field) : List Text :=
  match f.minimum, f.maximum with
  | some lo, some hi => [tag ("@range " ++ lo ++ "," ++ hi)]
  | _, _ => []

def invalidTag (f : Field) : List Text :=
  f.invalid.toList.map fun value => tag ("@invalid " ++ value)

/-- The tags and the description of the field's comment. -/
def commentParts (f : Field) : List Text :=
  f.unitTag ++ f.enumTag ++ f.rangeTag ++ f.invalidTag ++
    (if f.description = [] then [] else [f.description])

def comment? (f : Field) : Option Text :=
  if f.commentParts = [] then none else some (Text.join " " f.commentParts)

def declaration (f : Field) : Declaration :=
  .field f.typeName f.name f.comment?

end Field

def Constant.declaration (c : Constant) : Declaration :=
  .constant c.typeName c.name c.value c.comment

/-! ## Messages -/

namespace Message

/-- The constants of a message: the values of its enumerations, then those that belong to none. -/
def allConstants (m : Message) : List Constant :=
  (m.enums.map Enumeration.values).flatten ++ m.constants

def declarations (m : Message) : List Declaration :=
  m.fields.map Field.declaration ++ m.allConstants.map Constant.declaration

def schemaLines (m : Message) : List Text :=
  Header.print ⟨m.short, m.long⟩ ++ [[]] ++ m.declarations.map Declaration.print

/-- The schema that declares a message. -/
def schema (m : Message) : Text :=
  Header.endLines m.schemaLines

end Message

end MessageDocs
