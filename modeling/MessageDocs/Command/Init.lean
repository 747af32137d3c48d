import MessageDocs.Command.Session

/-! # The `init` command

Writes a manifest whose sources are the outermost directories with schemas below a directory. A
scan goes into subdirectories, so a directory that lies in another one adds nothing.
-/

set_option autoImplicit false

namespace MessageDocs.Command

structure Init where
  path : Path := ⟨"."⟩
  force : Bool := false
  deriving DecidableEq, Repr

namespace Init

/-! ## Source directories -/

/-- A directory by its name, the empty path being the directory itself. -/
def named (p : Path) : Path :=
  if p.text = [] then ⟨"."⟩ else p

/-- Whether a path is one of several, by components. -/
def isAmong (paths : List Path) (p : Path) : Bool :=
  paths.any fun q => decide (q.Same p)

/-- Whether a directory lies in another one of several. -/
def isInside (all : List Path) (p : Path) : Bool :=
  all.any fun q => !decide (q.Same p) && p.startsWith q

/-- The last written form of each of several directories. -/
def distinct : List Path → List Path
  | [] => []
  | p :: rest => if isAmong rest p then distinct rest else p :: distinct rest

/-- The outermost of some directories, as sources of a manifest, in ascending order. -/
def minimalDirs (dirs : List Path) : List Text :=
  let all := distinct (dirs.map named)
  if isAmong all ⟨"."⟩ then
    ["."]
  else
    (NameSet.ofList ((all.filter (!isInside all ·)).map fun p => p.text ++ "/")).names

/-! ## The manifest -/

def sourceLine (dir : Text) : Text :=
  "  - \"" ++ dir ++ "\"\n"

/-- The list of sources, left out when the directory itself is the only one. -/
def sourcesPart (dirs : List Text) : Text :=
  if dirs.all (· = ['.']) then [] else "sources:\n" ++ (dirs.map sourceLine).flatten

def manifestText (dirs : List Text) : Text :=
  sourcesPart dirs ++ "output: docs/msg\n" ++ "enum_matching: prefix\n"

/-! ## Running -/

def existsFailure : Failure :=
  .build (Manifest.fileName ++ " already exists") (some "Use --force to overwrite".toList)

def discoveredLine (t : Terminal) (dirs : List Text) : Text :=
  if dirs = [] then [] else t.info "Discovered" (Text.join ", " dirs)

def createdLine (t : Terminal) (files : List SchemaFile) : Text :=
  t.success "Created"
    (Manifest.fileName ++ " (" ++ Text.counted files.length "schema" "schemas" ++ " found)")

def run (a : Init) (t : Terminal) (d : Disk) : Ended :=
  let target := Discovery.manifestAt a.path
  if d.contains target && !a.force then
    .failed existsFailure { disk := d }
  else
    let files := Scan.directory d {} a.path
    let dirs := minimalDirs (files.filterMap (·.relative.parent?))
    let s : Session := { disk := d, err := t.status "Scanning" (d.display a.path) }
    match d.writeText target (manifestText dirs) with
    | .error e => .failed (.access target ("Failed to write manifest: " ++ e.message)) s
    | .ok d =>
      .ok ({ s with disk := d }.report (discoveredLine t dirs ++ createdLine t files))

end Init

end MessageDocs.Command
