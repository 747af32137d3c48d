import MessageDocs.Discovery.Scan

/-! # Discovery of a project's schemas

The schemas of a project are found by its manifest, or by paths that name files and directories.

* `Discovery.ofProject` looks for a manifest in a directory and scans its sources.
* `Discovery.ofPaths` looks for the nearest manifest above the first path, and records each file
  found at the paths under the manifest source that contains it.
-/

set_option autoImplicit false

namespace MessageDocs

/-- What has been found. -/
structure Discovery where
  root : Path
  manifest : Manifest := {}
  hasManifest : Bool := false
  files : List SchemaFile := []

namespace Discovery

/-- Where pages go: the manifest's directory, seen from the project's root when it has a
manifest. -/
def outputDirectory (found : Discovery) : Path :=
  if found.hasManifest then found.root.join found.manifest.output else found.manifest.output

/-! ## Manifests -/

def manifestAt (root : Path) : Path :=
  root.join ⟨Manifest.fileName⟩

def loadManifest (d : Disk) (p : Path) : Except Failure Manifest :=
  match d.readText p with
  | .error e => .error (.access p ("Failed to read manifest: " ++ e.message))
  | .ok t => Manifest.ofText t

/-- The nearest directory at or above a path that holds a manifest. -/
def projectRoot? (d : Disk) (p : Path) : Option Path :=
  p.ancestors.find? fun dir => d.isFile (manifestAt dir)

/-! ## Projects -/

def ofProject (d : Disk) (root : Path) : Except Failure Discovery :=
  let scan (manifest : Manifest) : List SchemaFile :=
    Scan.sources d manifest root manifest.effectiveSources
  if d.contains (manifestAt root) then
    match loadManifest d (manifestAt root) with
    | .error e => .error e
    | .ok manifest =>
      .ok { root := root, manifest := manifest, hasManifest := true, files := scan manifest }
  else
    .ok { root := root, files := scan {} }

/-! ## Paths -/

/-- A directory itself, and the parent of anything else. -/
def directoryOf? (d : Disk) (p : Path) : Option Path :=
  if d.isDirectory p then some p else p.parent?

/-- The deepest of some anchors, the last of several. -/
def deepest? : List Path → Option Path
  | [] => none
  | p :: rest =>
    match deepest? rest with
    | none => some p
    | some other =>
      if p.components.length ≤ other.components.length then some other else some p

/-- The directory under which a path is recorded: the deepest anchor that contains it, or else the
directory of the path. -/
def anchorOf (d : Disk) (anchors : List Path) (p : Path) : Path :=
  match deepest? (anchors.filter (p.startsWith ·)) with
  | some anchor => anchor
  | none => (directoryOf? d p).getD ⟨[]⟩

/-- The schema files at a path, recorded under an anchor. A file that is named itself is never
excluded. -/
def filesAt (d : Disk) (manifest : Manifest) (anchors : List Path) (p : Path) :
    List SchemaFile :=
  let anchor := anchorOf d anchors p
  let inside := (p.stripPrefix? anchor).getD ⟨[]⟩
  if d.isDirectory p then
    ((Scan.directory d {} p).map fun f => inside.join f.relative).filterMap fun relative =>
      if manifest.isExcluded relative then none else some ⟨anchor, relative⟩
  else if d.isFile p && Scan.isSchemaFile p then
    [⟨anchor, inside⟩]
  else
    []

/-- The failure of a run whose working directory has been removed. -/
def lostDirectory : Failure :=
  .access ⟨"."⟩ ("Failed to read current directory: " ++ AccessError.notFound.message)

/-- What is found at absolute paths, seen from a working directory. -/
def ofAbsolute (d : Disk) (cwd : Path) (paths : List Path) : Except Failure Discovery :=
  match paths.head?.bind (projectRoot? d) with
  | some root =>
    match loadManifest d (manifestAt root) with
    | .error e => .error e
    | .ok manifest =>
      let anchors := (manifest.effectiveSources.map fun s => root.join ⟨s⟩) ++ [root]
      .ok
        { root := root
          manifest := manifest
          hasManifest := true
          files := (paths.map (filesAt d manifest anchors)).flatten }
  | none =>
    .ok
      { root := (paths.head?.bind (directoryOf? d)).getD cwd
        files := (paths.map (filesAt d {} [cwd])).flatten }

def ofPaths (d : Disk) (paths : List Path) : Except Failure Discovery :=
  match d.cwdPath? with
  | none => .error lostDirectory
  | some cwd => ofAbsolute d cwd (paths.map cwd.join)

/-- What is found at given paths, or in the working directory when none are given. -/
def ofInputs (d : Disk) (paths : List Path) : Except Failure Discovery :=
  if paths = [] then ofProject d ⟨"."⟩ else ofPaths d paths

end Discovery

end MessageDocs
