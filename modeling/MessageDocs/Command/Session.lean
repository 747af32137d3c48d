import MessageDocs.Batch
import MessageDocs.Terminal

/-! # Command sessions

A command runs on a disk and writes to two streams. Its session records the disk as it leaves it
and what it has written; its result is a failure or nothing.
-/

set_option autoImplicit false

namespace MessageDocs

structure Session where
  disk : Disk
  /-- What has been written to the output stream. -/
  out : Text := []
  /-- What has been written to the error stream. -/
  err : Text := []

namespace Session

def report (s : Session) (t : Text) : Session :=
  { s with err := s.err ++ t }

end Session

/-- How a command ended. -/
structure Ended where
  result : Except Failure Unit
  session : Session

namespace Ended

def ok (s : Session) : Ended :=
  ⟨.ok (), s⟩

def failed (f : Failure) (s : Session) : Ended :=
  ⟨.error f, s⟩

end Ended

/-! ## Reports on batches -/

namespace Batch

/-- The line on a file that could not be read. -/
def failureLine (t : Terminal) (f : Failure) : Text :=
  t.error "Failed" f.text ++
    (match f with
    | .schema _ _ _ (some help) => t.helpLine help
    | _ => [])

def warningPart (b : Batch) : Text :=
  if b.diagnostics.warningCount = 0 then []
  else ", " ++ Text.counted b.diagnostics.warningCount "warning" "warnings"

def summaryLine (t : Terminal) (b : Batch) : Text :=
  let read := Text.counted b.messages.length "message" "messages" ++ b.warningPart
  if b.hasFailures then
    t.warning "Parsed" (read ++ ", " ++ Text.ofNat b.failures.length ++ " failed")
  else
    t.info "Parsed" read

/-- The failures, remarks and summary of a batch. -/
def report (t : Terminal) (b : Batch) : Text :=
  (b.failures.map (failureLine t)).flatten ++ t.diagnostics b.diagnostics ++ b.summaryLine t

/-- The failure of a command some of whose files could not be read. -/
def failure (b : Batch) : Failure :=
  .build (Text.counted b.failures.length "schema file" "schema files" ++ " could not be parsed")
    (some "Fix the errors above and run again".toList)

end Batch

/-- The options of a manifest with the rule that the command line asks for. -/
def ReadOptions.withMatching (options : ReadOptions) (asked : Option Matching) : ReadOptions :=
  { options with matching := asked.getD options.matching }

end MessageDocs
