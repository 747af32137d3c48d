import MessageDocs.Command.Session
import MessageDocs.Page.Index

/-! # The `build` command

Reads every schema and writes a page for each message, then the index, into the output directory.
Pages are written in the order of the messages, so of two messages with one name the later one's
page stays.
-/

set_option autoImplicit false

namespace MessageDocs.Command

structure Build where
  paths : List Path := []
  output : Option Path := none
  matching : Option Matching := none
  sourceUrl : Option Text := none
  deriving DecidableEq, Repr

namespace Build

/-- A file to be written, and the line that reports it. -/
structure PageFile where
  path : Path
  contents : Text
  notice : Text := []

def emptyFailure : Failure :=
  .build "No .msg files found"
    (some "Pass schema files or directories, or list sources in msgdoc.yaml".toList)

/-- The session after files have been written, up to the first that cannot be. -/
def writeFiles : List PageFile → Session → Ended
  | [], s => .ok s
  | file :: files, s =>
    match s.disk.writeText file.path file.contents with
    | .error e => .failed (.access file.path ("Failed to write page: " ++ e.message)) s
    | .ok d => writeFiles files ({ s with disk := d }.report file.notice)

/-- The files of a batch: the pages of its messages, and the index. -/
def filesOf (t : Terminal) (output : Path) (context : Page.Context) (messages : List Message) :
    List PageFile :=
  (messages.map fun m =>
    { path := output.join ⟨m.pageName⟩
      contents := Page.render context m
      notice := t.status "Documenting" m.name }) ++
  [{ path := output.join ⟨Page.Index.fileName⟩, contents := Page.Index.render context messages }]

/-- The session with the output directory made if it is missing. -/
def prepare (output : Path) (s : Session) : Ended :=
  if s.disk.contains output then
    .ok s
  else
    match s.disk.createDirectories output with
    | ⟨d, none⟩ => .ok { s with disk := d }
    | ⟨d, some e⟩ =>
      .failed (.access output ("Failed to create output directory: " ++ e.message))
        { s with disk := d }

def scanningLine (t : Terminal) (d : Disk) (found : Discovery) : Text :=
  t.status "Scanning"
    (d.display found.root ++ " (" ++ Text.counted found.files.length "schema" "schemas" ++ ")")

def finishedLine (t : Terminal) (d : Disk) (output : Path) (b : Batch) : Text :=
  t.success "Finished"
    (Text.counted (b.messages.length + 1) "page" "pages" ++ " in " ++ d.display output)

/-- The session after all files have been written: its report and its result. -/
def conclude (t : Terminal) (output : Path) (b : Batch) (s : Session) : Ended :=
  let s := s.report (b.report t)
  if b.hasFailures then .failed b.failure s
  else .ok (s.report (finishedLine t s.disk output b))

def contextOf (a : Build) (found : Discovery) (b : Batch) : Page.Context :=
  Page.Context.ofMessages b.messages (a.sourceUrl.or found.manifest.sourceUrl)
    found.manifest.effectiveTitle

def run (a : Build) (t : Terminal) (d : Disk) : Ended :=
  match Discovery.ofInputs d a.paths with
  | .error e => .failed e { disk := d }
  | .ok found =>
    if found.files = [] then
      .failed emptyFailure { disk := d }
    else
      let output := a.output.getD found.outputDirectory
      let batch := Batch.ofFiles d (found.manifest.readOptions.withMatching a.matching) found.files
      match prepare output { disk := d, err := scanningLine t d found } with
      | ⟨.error e, s⟩ => .failed e s
      | ⟨.ok _, s⟩ =>
        match writeFiles (filesOf t output (contextOf a found batch) batch.messages) s with
        | ⟨.error e, s⟩ => .failed e s
        | ⟨.ok _, s⟩ => conclude t output batch s

end Build

end MessageDocs.Command
