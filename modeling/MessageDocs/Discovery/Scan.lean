import MessageDocs.Disk
import MessageDocs.Manifest
import MessageDocs.Sorting

/-! # Scanning for schema files

A scan lists the schema files under a directory, at any depth, in ascending order of their paths,
component by component. Each is known by the directory in which the scan began and by its path
from there; exclude patterns apply to the latter.
-/

set_option autoImplicit false

namespace MessageDocs

/-- A schema file: the directory it is recorded under, and its path from there. -/
structure SchemaFile where
  root : Path
  relative : Path
  deriving DecidableEq, Repr

/-- The path by which the file can be opened. -/
def SchemaFile.fullPath (f : SchemaFile) : Path :=
  f.root.join f.relative

namespace Scan

/-- The extension of schema files. -/
def schemaExtension : Text := "msg"

def isSchemaFile (p : Path) : Bool :=
  p.extension? = some schemaExtension

/-- Whether a walk from a path comes to the end of a way: the directory before it has to be listed
by its path. -/
def isReached (root : Path) (way : Location) : Bool :=
  way = [] || Disk.isUsable (root.joinNames way.dropLast)

/-- Whether what a walk comes to is taken for a file. A directory with too long a path is. -/
def countsAsFile (p : Path) : Node → Bool
  | .file _ => true
  | .directory => !Disk.isUsable p

/-- The ways from a path to the schema files at and under it, in ascending order. -/
def schemasBelow (d : Disk) (root : Path) : List Location :=
  match d.locate root with
  | .ok (.location loc) =>
    let found := (d.tree.below loc).filter fun e =>
      isSchemaFile (root.joinNames e.1) && isReached root e.1 &&
        countsAsFile (root.joinNames e.1) e.2
    sortedBy id (found.map Prod.fst)
  | _ => []

/-- The schema files under a directory that no pattern excludes. -/
def directory (d : Disk) (manifest : Manifest) (root : Path) : List SchemaFile :=
  ((schemasBelow d root).map Path.ofNames).filterMap fun relative =>
    if manifest.isExcluded relative then none else some ⟨root, relative⟩

/-- The schema files of several directories, one after the other. -/
def sources (d : Disk) (manifest : Manifest) (base : Path) (sources : List Text) :
    List SchemaFile :=
  (sources.map fun source => directory d manifest (base.join ⟨source⟩)).flatten

end Scan

end MessageDocs
