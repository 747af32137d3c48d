import MessageDocs.Diagnostics
import MessageDocs.Message

/-! # Checks on finished messages

`Checks.message` looks at one message, for constants without an enumeration and enumerations
without constants; `Checks.batch` looks for names that several messages share.
-/

set_option autoImplicit false

namespace MessageDocs.Checks

/-- A quoted list of names in the text of a remark. -/
def listed (names : List Text) : Text :=
  Text.join ", " names

/-! ## One message -/

/-- The remark on loose constants: a warning when the message has enumerations they could have
belonged to, otherwise a note. -/
def looseRemark (m : Message) : Diagnostic :=
  let text := Text.ofNat m.constants.length ++
    " constant(s) not associated with any enum: " ++ listed (m.constants.map Constant.name)
  if m.enums = [] then
    { severity := .note, code := Diagnostic.unassociated, message := text, place := .file m.path }
  else
    { severity := .warning
      code := Diagnostic.unassociated
      message := text
      help := some
        "Prefix enum constants with the enum name, e.g. STATUS_OK for [@enum STATUS]".toList
      place := .file m.path }

def looseConstants (m : Message) : Diagnostics :=
  if m.constants = [] then
    {}
  else
    (({} : Diagnostics).recordUnassociated m.name m.constants.length).push (looseRemark m)

/-- The fields that refer to an enumeration. -/
def references (m : Message) (enum : Text) : List Field :=
  m.fields.filter (·.enumTags.contains enum)

def emptyEnumRemark (m : Message) (e : Enumeration) : Diagnostic where
  severity := .warning
  code := Diagnostic.emptyEnum
  message := "enum '" ++ e.name ++ "' (referenced by " ++
    listed ((references m e.name).map Field.name) ++ ") has no constants"
  help := some ("Declare constants named " ++ e.name ++ "_<VALUE> in this message")
  place :=
    match references m e.name with
    | [] => .file m.path
    | first :: _ => .line m.path first.line

def emptyEnums (m : Message) : Diagnostics :=
  { list := (m.enums.filter (·.values = [])).map (emptyEnumRemark m) }

def message (m : Message) : Diagnostics :=
  (looseConstants m).merge (emptyEnums m)

/-! ## Several messages -/

/-- The names of several messages, each once, in ascending order. -/
def namesOf (messages : List Message) : List Text :=
  (NameSet.ofList (messages.map Message.name)).names

def duplicateRemark (name : Text) (group : List Message) : Diagnostic where
  severity := .warning
  code := Diagnostic.duplicateMessage
  message := "message '" ++ name ++ "' is defined by " ++ listed (group.map (·.path.text))
  help := some "Only the last file's page is kept; rename one of the files".toList

def duplicateRemark? (messages : List Message) (name : Text) : Option Diagnostic :=
  let group := messages.filter (·.name = name)
  if group.length > 1 then some (duplicateRemark name group) else none

def batch (messages : List Message) : Diagnostics :=
  { list := (namesOf messages).filterMap (duplicateRemark? messages) }

end MessageDocs.Checks
