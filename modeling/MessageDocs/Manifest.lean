import MessageDocs.Failure
import MessageDocs.Manifest.Pattern
import MessageDocs.Schema.Reader
import MessageDocs.Yaml.Document

/-! # Project manifests

The manifest of a project says where its schemas are, where its pages go and how schemas are
interpreted. It is a YAML mapping in which every key may be left out; keys that mean nothing here
are ignored, and none of the others may occur twice.

* `Manifest.ofText` reads a manifest.
* `Manifest.isExcluded` tells whether its patterns exclude a path.
-/

set_option autoImplicit false

namespace MessageDocs

structure Manifest where
  /-- The directories with schemas; none means the project's root. -/
  sources : List Text := []
  output : Path := ⟨"docs/msg"⟩
  excludes : List Text := []
  matching : Matching := .byPrefix
  extraUnits : List Text := []
  sourceUrl : Option Text := none
  title : Option Text := none
  deriving DecidableEq, Repr

namespace Manifest

def fileName : Text := "msgdoc.yaml"

/-! ## Reading -/

def keys : List Text :=
  ["sources", "output", "excludes", "enum_matching", "extra_units", "source_url", "title"]

/-- A value read from the entry with a key, or the default when there is none. -/
def entry {α : Type} (entries : List (Text × List Yaml.Item)) (key : Text) (default : α)
    (read : List Yaml.Item → Option α) : Option α :=
  match entries.find? (·.1 = key) with
  | some e => read e.2
  | none => some default

def matching? (d : Yaml.Document) (items : List Yaml.Item) : Option Matching :=
  (d.choice? items).bind Matching.ofWord?

def ofEntries? (d : Yaml.Document) (entries : List (Text × List Yaml.Item)) : Option Manifest :=
  if (entries.map Prod.fst).any (fun key => keys.contains key &&
      decide (1 < (entries.map Prod.fst).count key)) then
    none
  else do
    let sources ← entry entries "sources" [] d.texts?
    let output ← entry entries "output" ("docs/msg" : Text) d.text?
    let excludes ← entry entries "excludes" [] d.texts?
    let matching ← entry entries "enum_matching" .byPrefix (matching? d)
    let extraUnits ← entry entries "extra_units" [] d.texts?
    let sourceUrl ← entry entries "source_url" none d.optionalText?
    let title ← entry entries "title" none d.optionalText?
    some { sources, output := ⟨output⟩, excludes, matching, extraUnits, sourceUrl, title }

def ofDocument? (d : Yaml.Document) : Option Manifest :=
  (d.entries? d.items).bind (ofEntries? d)

def invalid : Failure :=
  .config "Invalid manifest" (some "Check msgdoc.yaml syntax".toList)

/-- The manifest that a text describes; a text of white space describes the default one. -/
def ofText (t : Text) : Except Failure Manifest :=
  if Text.trim t = [] then
    .ok {}
  else
    match (Yaml.Document.ofText? t).bind ofDocument? with
    | some m => .ok m
    | none => .error invalid

/-! ## Meaning -/

def isExcluded (m : Manifest) (path : Path) : Bool :=
  m.excludes.any (Pattern.excludes · path.text)

def effectiveSources (m : Manifest) : List Text :=
  if m.sources = [] then ["."] else m.sources

def effectiveTitle (m : Manifest) : Text :=
  m.title.getD "Message Reference"

def readOptions (m : Manifest) : ReadOptions where
  units := Units.withExtra Units.standard m.extraUnits
  matching := m.matching

end Manifest

end MessageDocs
