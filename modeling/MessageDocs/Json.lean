import MessageDocs.Text

/-! # JSON

JSON values and their indented text: two blanks a level, one entry a line, and empty arrays and
objects on one line. A string is written with escapes for quotes, backslashes and control
characters only.
-/

set_option autoImplicit false

namespace MessageDocs

inductive Json where
  | null
  | number (n : Nat)
  | string (t : Text)
  | array (items : List Json)
  | object (members : List (Text × Json))

namespace Json

/-! ## Strings -/

def hexDigit (n : Nat) : Char :=
  if n < 10 then Char.ofNat ('0'.toNat + n) else Char.ofNat ('a'.toNat + (n - 10))

/-- A character as it is written in a string. -/
def escape (c : Char) : Text :=
  if c = '"' then ['\\', '"']
  else if c = '\\' then ['\\', '\\']
  else if c = '\n' then ['\\', 'n']
  else if c = '\r' then ['\\', 'r']
  else if c = '\t' then ['\\', 't']
  else if c = '\x08' then ['\\', 'b']
  else if c = '\x0c' then ['\\', 'f']
  else if c.toNat < 0x20 then ['\\', 'u', '0', '0', hexDigit (c.toNat / 16), hexDigit (c.toNat % 16)]
  else [c]

def quote (t : Text) : Text :=
  '"' :: t.flatMap escape ++ ['"']

/-! ## Values -/

/-- The start of a line of the given depth. -/
def newLine (depth : Nat) : Text :=
  '\n' :: List.replicate (2 * depth) ' '

mutual

/-- A value inside `depth` arrays and objects. -/
def pretty (depth : Nat) : Json → Text
  | null => "null"
  | number n => Text.ofNat n
  | string t => quote t
  | array [] => "[]"
  | array (item :: items) =>
    '[' :: newLine (depth + 1) ++ pretty (depth + 1) item ++ prettyItems (depth + 1) items ++
      newLine depth ++ [']']
  | object [] => ['\x7b', '\x7d']
  | object (member :: members) =>
    '\x7b' :: newLine (depth + 1) ++ prettyMember (depth + 1) member ++
      prettyMembers (depth + 1) members ++ newLine depth ++ ['\x7d']

def prettyItems (depth : Nat) : List Json → Text
  | [] => []
  | item :: items => ',' :: newLine depth ++ pretty depth item ++ prettyItems depth items

def prettyMember (depth : Nat) : Text × Json → Text
  | (name, value) => quote name ++ ": " ++ pretty depth value

def prettyMembers (depth : Nat) : List (Text × Json) → Text
  | [] => []
  | member :: members =>
    ',' :: newLine depth ++ prettyMember depth member ++ prettyMembers depth members

end

/-- The text of a value. -/
def print (value : Json) : Text :=
  pretty 0 value

/-- A text or null. -/
def ofOption : Option Text → Json
  | none => null
  | some t => string t

end Json

end MessageDocs
