import MessageDocs.Checks
import MessageDocs.Declaration
import MessageDocs.Draft
import MessageDocs.Failure
import MessageDocs.Metadata
import MessageDocs.Schema.Layout
import MessageDocs.Units

/-! # Reading schemas

A schema is read line by line into a draft. Remarks go to a collection of diagnostics that is
passed along; the first line that declares nothing, or declares a name again, ends the reading,
and the remarks made before it stay in the collection.

* `Schema.readLine` reads one body line.
* `Schema.readInto` reads a whole source into a given collection, `Schema.read` into an empty one.
-/

set_option autoImplicit false

namespace MessageDocs

/-- How schemas are interpreted. -/
structure ReadOptions where
  /-- The units that pass without a remark. -/
  units : NameSet := Units.standard
  matching : Matching := .byPrefix

namespace Schema

/-! ## Remarks -/

def topicsRemark (path : Path) (line : Nat) : Diagnostic where
  severity := .note
  code := Diagnostic.topics
  message := "topics section ignored"
  place := .line path line

def commentRemark (path : Path) (line : Nat) (text : Text) : Diagnostic where
  severity := .warning
  code := Diagnostic.internalComment
  message := "internal comment not documented: " ++ text
  help := some "Move the text into the header or a trailing field comment".toList
  place := .line path line

def unitRemark (path : Path) (line : Nat) (unit field : Text) : Diagnostic where
  severity := .warning
  code := Diagnostic.unknownUnit
  message := "unknown unit [" ++ unit ++ "] on field '" ++ field ++ "'"
  help := some "Use an allowed unit or add it to extra_units in msgdoc.yaml".toList
  place := .line path line

/-- The collection after a field's unit has been compared with the allowed ones. -/
def checkUnit (options : ReadOptions) (path : Path) (f : Field) (ds : Diagnostics) :
    Diagnostics :=
  match f.unit with
  | none => ds
  | some unit =>
    if options.units.contains unit then
      ds
    else
      (ds.recordInvalidUnit unit).push (unitRemark path f.line unit f.name)

/-! ## Declarations -/

/-- A field as declared on a line, with what its comment says. -/
def fieldOf (line : Nat) (typeName name : Text) (metadata : Metadata) : Field where
  name := name
  typeName := typeName
  description := metadata.description
  unit := metadata.unit
  enumTags := metadata.enumTags
  minimum := metadata.minimum
  maximum := metadata.maximum
  invalid := metadata.invalid
  line := line

def refuse (path : Path) (line : Nat) (message help : Text) : Failure :=
  .schema path line message (some help)

/-- The draft with a field; the enumerations it refers to are known even if it is refused. -/
def addField (path : Path) (d : Draft) (f : Field) : Except Failure Draft :=
  match (d.declareEnums f.enumTags).addField f with
  | .ok d => .ok d
  | .error duplicate => .error (refuse path f.line duplicate.message duplicate.help)

def addConstant (path : Path) (d : Draft) (c : Constant) : Except Failure Draft :=
  match d.addConstant c with
  | .ok d => .ok d
  | .error duplicate => .error (refuse path c.line duplicate.message duplicate.help)

def readDeclaration (options : ReadOptions) (path : Path) (line : Nat) (text : Text)
    (d : Draft) (ds : Diagnostics) : Except Failure Draft × Diagnostics :=
  match Declaration.classify text with
  | .error e => (.error (refuse path line e.message e.help), ds)
  | .ok (.constant typeName name value comment) =>
    (addConstant path d ⟨name, typeName, value, comment, line⟩, ds)
  | .ok (.field typeName name comment) =>
    match Metadata.read comment with
    | .error e => (.error (refuse path line e.message e.help), ds)
    | .ok metadata =>
      let f := fieldOf line typeName name metadata
      (addField path d f, checkUnit options path f ds)

/-! ## Files -/

def readLine (options : ReadOptions) (path : Path) (line : NumberedLine) (d : Draft)
    (ds : Diagnostics) : Except Failure Draft × Diagnostics :=
  match BodyLine.ofText line.text with
  | .blank => (.ok d, ds)
  | .topics => (.ok d, ds.push (topicsRemark path line.number))
  | .comment text =>
    (.ok d, if text = [] then ds else ds.push (commentRemark path line.number text))
  | .declaration text => readDeclaration options path line.number text d ds

def readLines (options : ReadOptions) (path : Path) :
    List NumberedLine → Draft → Diagnostics → Except Failure Draft × Diagnostics
  | [], d, ds => (.ok d, ds)
  | line :: lines, d, ds =>
    match readLine options path line d ds with
    | (.ok d, ds) => readLines options path lines d ds
    | (.error e, ds) => (.error e, ds)

/-- Reads a source, adding its remarks to a collection. The path names the message. -/
def readInto (options : ReadOptions) (path : Path) (source : Text) (ds : Diagnostics) :
    Except Failure Message × Diagnostics :=
  let layout := Layout.ofSource source
  match readLines options path layout.body { path := path, source := source } ds with
  | (.error e, ds) => (.error e, ds)
  | (.ok d, ds) =>
    let m := { d with header := Header.ofLines layout.header }.finish options.matching.claims
    (.ok m, ds.merge (Checks.message m))

def read (options : ReadOptions) (path : Path) (source : Text) :
    Except Failure Message × Diagnostics :=
  readInto options path source {}

end Schema

end MessageDocs
