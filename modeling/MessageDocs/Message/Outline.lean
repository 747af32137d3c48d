import MessageDocs.Message

/-! # Outlines of messages

The outline of a message is its name, its short description, and a line for each field,
enumeration value and loose constant.
-/

set_option autoImplicit false

namespace MessageDocs

/-- The line of a field, with its metadata as it would be annotated. -/
def Field.outline (f : Field) : Text :=
  let unit : Text :=
    match f.unit with
    | some unit => " [" ++ unit ++ "]"
    | none => []
  let enums : Text := if f.enumTags = [] then [] else " @enum " ++ Text.join " " f.enumTags
  let range : Text :=
    if f.hasRange then " @range " ++ f.minimum.getD [] ++ "," ++ f.maximum.getD [] else []
  "  " ++ f.typeName ++ " " ++ f.name ++ unit ++ enums ++ range ++ "\n"

def Constant.outline (c : Constant) : Text :=
  "  " ++ c.name ++ " = " ++ c.value ++ "\n"

def Enumeration.outline (e : Enumeration) : Text :=
  "enum " ++ e.name ++ ":\n" ++ (e.values.map Constant.outline).flatten

/-- Lines under a title, or nothing when there are none. -/
def outlineSection (title : Text) (lines : List Text) : Text :=
  if lines = [] then [] else title ++ "\n" ++ lines.flatten

def Message.outline (m : Message) : Text :=
  let short : Text := if m.short = [] then [] else "  " ++ m.short ++ "\n"
  m.name ++ "\n" ++ short ++ outlineSection "fields:" (m.fields.map Field.outline) ++
    (m.enums.map Enumeration.outline).flatten ++
    outlineSection "constants:" (m.constants.map Constant.outline)

end MessageDocs
