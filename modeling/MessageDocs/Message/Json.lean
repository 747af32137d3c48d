import MessageDocs.Json
import MessageDocs.Message

/-! # Messages as JSON

The JSON form of a message has all that the message holds but its source. Enumerations, their
values and the loose constants are objects with one member per name, in the message's order.
-/

set_option autoImplicit false

namespace MessageDocs

def Field.toJson (f : Field) : Json :=
  .object
    [("name", .string f.name), ("type", .string f.typeName),
     ("description", .string f.description), ("unit", .ofOption f.unit),
     ("enum_tags", .array (f.enumTags.map .string)), ("min_value", .ofOption f.minimum),
     ("max_value", .ofOption f.maximum), ("invalid_value", .ofOption f.invalid),
     ("line", .number f.line)]

def Constant.toJson (c : Constant) : Json :=
  .object
    [("name", .string c.name), ("type", .string c.typeName), ("value", .string c.value),
     ("comment", .ofOption c.comment), ("line", .number c.line)]

/-- Constants by name. -/
def Constant.tableToJson (constants : List Constant) : Json :=
  .object (constants.map fun c => (c.name, c.toJson))

def Enumeration.toJson (e : Enumeration) : Json :=
  .object [("name", .string e.name), ("values", Constant.tableToJson e.values)]

def Message.toJson (m : Message) : Json :=
  .object
    [("name", .string m.name), ("path", .string m.path.text),
     ("short_description", .string m.short), ("long_description", .string m.long),
     ("fields", .array (m.fields.map Field.toJson)),
     ("enums", .object (m.enums.map fun e => (e.name, e.toJson))),
     ("constants", Constant.tableToJson m.constants)]

end MessageDocs
