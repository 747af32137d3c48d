import MessageDocs.Command.Session
import MessageDocs.Sorting

/-! # The `list` command

Prints one line per message, in ascending order of names.
-/

set_option autoImplicit false

namespace MessageDocs.Command

structure Listing where
  paths : List Path := []
  withPath : Bool := false
  deriving DecidableEq, Repr

namespace Listing

def line (d : Disk) (withPath : Bool) (m : Message) : Text :=
  let path : Text := if withPath then "\t" ++ d.display m.path else []
  m.name ++ path ++ "\t" ++ m.short ++ "\n"

def lines (d : Disk) (withPath : Bool) (messages : List Message) : Text :=
  ((sortedBy Message.name messages).map (line d withPath)).flatten

def run (a : Listing) (t : Terminal) (d : Disk) : Ended :=
  match Discovery.ofInputs d a.paths with
  | .error e => .failed e { disk := d }
  | .ok found =>
    let batch := Batch.ofFiles d found.manifest.readOptions found.files
    let s : Session :=
      { disk := d, out := lines d a.withPath batch.messages, err := batch.report t }
    if batch.hasFailures then .failed batch.failure s else .ok s

end Listing

end MessageDocs.Command
