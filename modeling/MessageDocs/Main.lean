import MessageDocs.Arguments.Invocation

/-! # The program

Reads the arguments, records the part of the file system that the command can look at, runs the
command on the record, and carries out what the command has written.
-/

set_option autoImplicit false

namespace MessageDocs.Program

/-! ## Messages -/

def version : String := "msgdoc 0.4.1"

def usage : String :=
  let names := Arguments.commands.map fun c => "\n  " ++ String.ofList c.1
  "Usage: msgdoc [--quiet] COMMAND [ARGUMENTS]\n\nCommands:" ++ String.join names

def complaint : Arguments.ArgumentError → String
  | .unknownArgument => "unknown argument"
  | .invalidValue => "invalid value"
  | .invalidSubcommand => "unknown command"
  | .missingRequiredArgument => "missing argument"
  | .missingSubcommand => "missing command"
  | .argumentConflict => "option given more than once"
  | .tooManyValues => "option takes no value"
  | .displayHelp => usage
  | .displayVersion => version
  | .displayHelpOnMissingArgument => usage

/-- Help and version are answers; everything else that is no command is a mistake. -/
def explain (e : Arguments.ArgumentError) : IO UInt32 := do
  match e with
  | .displayHelp | .displayVersion =>
    IO.println (complaint e)
    return 0
  | .displayHelpOnMissingArgument =>
    IO.eprintln usage
    return 2
  | _ =>
    IO.eprintln ("error: " ++ complaint e)
    return 2

def failureText (t : Terminal) (f : Failure) : Text :=
  t.error "Error" f.text ++
    (match f.help? with
    | some help => t.helpLine help
    | none => [])

/-! ## Recording the file system -/

def systemPath (loc : Location) : String :=
  String.ofList (Path.absolute loc).text

def nodeType (loc : Location) : IO (Option IO.FS.FileType) := do
  try
    let entry ← ((← IO.currentDir) / systemPath loc).metadata
    return some entry.type
  catch _ =>
    return none

def recordFile (loc : Location) (d : Disk) : IO Disk := do
  let contents ←
    try
      pure (Contents.ofBytes (← IO.FS.readBinFile (systemPath loc)).toList)
    catch _ =>
      pure (Contents.binary [])
  return { d with tree := (d.tree.putFile loc contents).getD d.tree }

/-- The disk with what is at a location, whose directory has been recorded. -/
def recordNode (loc : Location) (d : Disk) : IO Disk := do
  if (d.tree.node? loc).isSome then
    return d
  match ← nodeType loc with
  | none => return d
  | some .dir => return { d with tree := (d.tree.putDirectory loc).getD d.tree }
  | some _ => recordFile loc d

/-- The disk with a directory on the way to something, and the manifest that it may hold. -/
def recordStop (loc : Location) (d : Disk) : IO Disk := do
  recordNode (loc ++ [Manifest.fileName]) (← recordNode loc d)

/-- The disk with all that segments lead to and through from a location. -/
def recordWay : Location → List Text → Disk → IO Disk
  | _, [], d => return d
  | loc, segment :: rest, d => do
    match Path.Component.ofSegment? segment with
    | some .up => recordWay loc.dropLast rest d
    | some (.name n) => recordWay (loc ++ [n]) rest (← recordStop (loc ++ [n]) d)
    | _ => recordWay loc rest d

def recordPath (d : Disk) (p : Path) : IO Disk := do
  recordWay [] (Path.segmentsOf ((Path.absolute d.cwd).join p).text) (← recordNode [Manifest.fileName] d)

/-- The disk with all that lies under a location. A directory that a link leads back to is not
entered again. -/
partial def recordBelow (outer : List String) (loc : Location) (d : Disk) : IO Disk := do
  if d.tree.node? loc ≠ some .directory then
    return d
  let directory := (← IO.currentDir) / systemPath loc
  let itself := toString (← IO.FS.realPath directory)
  if outer.contains itself then
    return d
  let entries ← try directory.readDir catch _ => pure #[]
  let mut d := d
  for entry in entries do
    let inner := loc ++ [entry.fileName.toList]
    d ← recordBelow (itself :: outer) inner (← recordNode inner d)
  return d

def recordTree (d : Disk) (p : Path) : IO Disk := do
  let d ← recordPath d p
  match d.locate p with
  | .ok (.location loc) => recordBelow [] loc d
  | _ => return d

def recordAll (record : Disk → Path → IO Disk) (d : Disk) (ps : List Path) : IO Disk :=
  ps.foldlM record d

/-- The paths that a command works on when it discovers schemas: the given ones, or else the
sources of the project. -/
def inputsOf (d : Disk) (paths : List Path) : List Path :=
  match paths, Discovery.ofInputs d paths with
  | [], .ok found => found.manifest.effectiveSources.map fun s => found.root.join ⟨s⟩
  | _, _ => paths

def recordInputs (d : Disk) (paths : List Path) : IO Disk := do
  let d ← recordAll recordPath d (⟨"."⟩ :: paths)
  recordAll recordTree d (inputsOf d paths)

/-- The disk with the directory that a build writes to. -/
def recordOutput (d : Disk) (a : Command.Build) : IO Disk := do
  match a.output, Discovery.ofInputs d a.paths with
  | some output, _ => recordTree d output
  | none, .ok found => recordTree d found.outputDirectory
  | none, .error _ => return d

/-- The disk as far as a command can tell. -/
def record (c : Command) : IO Disk := do
  let cwd : Path := ⟨(toString (← IO.currentDir)).toList⟩
  let d ← recordPath { tree := FileTree.empty, cwd := [] } cwd
  let d :=
    match d.locate cwd with
    | .ok (.location loc) => { d with cwd := loc }
    | _ => d
  match c with
  | .build a => recordOutput (← recordInputs d a.paths) a
  | .validate a => recordInputs d a.paths
  | .list a => recordInputs d a.paths
  | .inspect a => recordPath d a.file
  | .init a => recordTree d a.path
  | .completions _ => return d

/-! ## Carrying out -/

/-- The entries of the second list that the first one has not at the same place. A command keeps
the order of the entries and adds new ones at the end. -/
def changed : List (Location × Node) → List (Location × Node) → List (Location × Node)
  | [], new => new
  | _, [] => []
  | old :: olds, entry :: new =>
    if entry = old then changed olds new else entry :: changed olds new

def carryOut (entry : Location × Node) : IO Unit :=
  match entry.2 with
  | .directory => IO.FS.createDir (systemPath entry.1)
  | .file (.text t) => IO.FS.writeFile (systemPath entry.1) (String.ofList t)
  | .file (.binary bytes) => IO.FS.writeBinFile (systemPath entry.1) ⟨bytes.toArray⟩

def perform (i : Invocation) : IO UInt32 := do
  let t : Terminal := { color := ← (← IO.getStderr).isTty, quiet := i.quiet }
  let d ← record i.command
  let ended := i.command.run t d
  (changed d.tree.entries ended.session.disk.tree.entries).forM carryOut
  IO.print (String.ofList ended.session.out)
  IO.eprint (String.ofList ended.session.err)
  match ended.result with
  | .ok _ => return 0
  | .error f =>
    IO.eprint (String.ofList (failureText t f))
    return 1

end MessageDocs.Program

/-- Runs the program on its arguments. -/
def main (args : List String) : IO UInt32 := do
  match MessageDocs.Invocation.ofArguments (args.map String.toList) with
  | .error e => MessageDocs.Program.explain e
  | .ok i => MessageDocs.Program.perform i
