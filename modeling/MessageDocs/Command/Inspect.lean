import MessageDocs.Command.Session
import MessageDocs.Message.Json
import MessageDocs.Message.Outline

/-! # The `inspect` command

Reads a single schema and prints its model, as an outline or as JSON.
-/

set_option autoImplicit false

namespace MessageDocs.Command

structure Inspect where
  file : Path
  json : Bool := false
  matching : Option Matching := none
  deriving DecidableEq, Repr

namespace Inspect

def render (json : Bool) (m : Message) : Text :=
  if json then m.toJson.print ++ "\n" else m.outline

def run (a : Inspect) (t : Terminal) (d : Disk) : Ended :=
  match Discovery.ofInputs d [a.file] with
  | .error e => .failed e { disk := d }
  | .ok found =>
    match found.files with
    | [] => .failed (.access a.file "Not a .msg schema file") { disk := d }
    | file :: _ =>
      match Batch.readSchema d (found.manifest.readOptions.withMatching a.matching) file with
      | (.error e, _) => .failed e { disk := d }
      | (.ok m, ds) => .ok { disk := d, out := render a.json m, err := t.diagnostics ds }

end Inspect

end MessageDocs.Command
