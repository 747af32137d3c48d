import MessageDocs.Message
import MessageDocs.NameMap
import MessageDocs.Page.Fence
import MessageDocs.Page.Table
import MessageDocs.Text.Lowercase

/-! # Message pages

The page of a message has its descriptions, a table of its fields, a table for each enumeration
with values and one for the loose constants, and the schema itself. Types that name a message of
the batch are links to its page, and enumeration tags are links within the page.
-/

set_option autoImplicit false

namespace MessageDocs.Page

/-- What the pages of a batch share. -/
structure Context where
  /-- The messages that have a page. -/
  known : NameSet
  /-- The address under which the schema files are found, without a `/` at its end. -/
  sourceUrl : Option Text := none
  title : Text := "Message Reference"

namespace Context

/-- The context of a batch, from an address as it was given. -/
def ofMessages (messages : List Message) (sourceUrl : Option Text) (title : Text) : Context where
  known := NameSet.ofList (messages.map Message.name)
  sourceUrl := sourceUrl.map (Text.dropTail (· == '/'))
  title := title

end Context

/-! ## Cells -/

/-- A text in code style. -/
def code (t : Text) : Text :=
  "`" ++ t ++ "`"

def link (label target : Text) : Text :=
  "[" ++ label ++ "](" ++ target ++ ")"

def typeCell (context : Context) (f : Field) : Text :=
  if context.known.contains f.baseType then
    link (code f.typeName) (f.baseType ++ ".md")
  else
    code f.typeName

def enumLink (tag : Text) : Text :=
  link tag ("#" ++ Text.lower tag)

/-- What is known of a field's values: its enumerations, its bounds and its sentinel. -/
def rangeParts (f : Field) : List Text :=
  (if f.enumTags = [] then [] else [Text.join ", " (f.enumTags.map enumLink)]) ++
  (if f.hasRange then
    ["[" ++ f.minimum.getD [] ++ " : " ++ f.maximum.getD [] ++ "]"]
  else
    []) ++
  (match f.invalid with
  | some value => ["invalid: " ++ value]
  | none => [])

def rangeCell (f : Field) : Text :=
  Table.escape (Text.join "<br>" (rangeParts f))

def fieldRow (context : Context) (f : Field) : List Text :=
  [Table.escape f.name, typeCell context f, Table.escape (f.unit.getD []), rangeCell f,
   Table.escape f.description]

def constantRow (c : Constant) : List Text :=
  [Table.escape c.name, code c.typeName, Table.escape c.value, Table.escape (c.comment.getD [])]

/-! ## Sections -/

def fieldColumns : List Text :=
  ["Name", "Type", "Unit", "Range/Enum", "Description"]

def constantColumns : List Text :=
  ["Name", "Type", "Value", "Description"]

def constantTable (constants : List Constant) : Text :=
  Table.render constantColumns (constants.map constantRow)

/-- A paragraph with the empty line after it, unless it has no text. -/
def paragraph (t : Text) : Text :=
  if t = [] then [] else t ++ "\n\n"

def kind (m : Message) : Text :=
  if m.isVersioned then "versioned message" else "message"

def titleLine (m : Message) : Text :=
  "# " ++ m.name ++ " (" ++ kind m ++ ")\n\n"

def longParagraph (m : Message) : Text :=
  if m.long = [] then [] else Text.trimEnd m.long ++ "\n\n"

def sourceLink (context : Context) (m : Message) : Text :=
  match context.sourceUrl with
  | some base =>
    let path := m.path.text.map fun c => if c = '\\' then '/' else c
    link "source file" (base ++ "/" ++ path) ++ "\n\n"
  | none => []

def fieldSection (context : Context) (m : Message) : Text :=
  if m.fields = [] then
    []
  else
    "## Fields\n\n" ++ Table.render fieldColumns (m.fields.map (fieldRow context))

def enumSection (e : Enumeration) : Text :=
  "### " ++ e.name ++ "\n\n" ++ constantTable e.values

def enumSections (m : Message) : Text :=
  match m.enums.filter (·.values ≠ []) with
  | [] => []
  | enums => "## Enums\n\n" ++ (enums.map enumSection).flatten

def constantSection (m : Message) : Text :=
  if m.constants = [] then [] else "## Constants\n\n" ++ constantTable m.constants

def sourceSection (m : Message) : Text :=
  "## Source Message\n\n" ++ Fence.block "c" (Text.trimEnd m.source)

/-- The page of a message. -/
def render (context : Context) (m : Message) : Text :=
  titleLine m ++ paragraph m.short ++ longParagraph m ++ sourceLink context m ++
    fieldSection context m ++ enumSections m ++ constantSection m ++ sourceSection m

end MessageDocs.Page
