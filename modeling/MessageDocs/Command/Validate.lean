import MessageDocs.Command.Session

/-! # The `validate` command

Reads every schema and reports on them. In strict mode warnings are a failure.
-/

set_option autoImplicit false

namespace MessageDocs.Command

structure Validate where
  paths : List Path := []
  matching : Option Matching := none
  strict : Bool := false
  deriving DecidableEq, Repr

namespace Validate

def strictFailure (warnings : Nat) : Failure :=
  .build (Text.counted warnings "warning" "warnings" ++ " in strict mode")
    (some "Fix the warnings above or run without --strict".toList)

def run (a : Validate) (t : Terminal) (d : Disk) : Ended :=
  match Discovery.ofInputs d a.paths with
  | .error e => .failed e { disk := d }
  | .ok found =>
    let batch := Batch.ofFiles d (found.manifest.readOptions.withMatching a.matching) found.files
    let checked := (batch.messages.map fun m => t.status "Checked" m.name).flatten
    let s : Session := { disk := d, err := checked ++ batch.report t }
    if batch.hasFailures then .failed batch.failure s
    else if a.strict && batch.diagnostics.hasWarnings then
      .failed (strictFailure batch.diagnostics.warningCount) s
    else .ok s

end Validate

end MessageDocs.Command
