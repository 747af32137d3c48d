import MessageDocs.Diagnostics
import MessageDocs.Path

/-! # Terminal lines

A status line is a verb, right-aligned in a column of its own, and a text. Lines are coloured only
for a terminal, and a quiet run leaves out the lines that report progress.
-/

set_option autoImplicit false

namespace MessageDocs

/-- How a command writes to the error stream. -/
structure Terminal where
  color : Bool := false
  quiet : Bool := false
  deriving DecidableEq, Repr

inductive Tone where
  | green
  | cyan
  | yellow
  | red
  deriving DecidableEq, Repr

/-- The escape sequence of a bold colour. -/
def Tone.code : Tone → Text
  | green => "\x1b[1;32m"
  | cyan => "\x1b[1;36m"
  | yellow => "\x1b[1;33m"
  | red => "\x1b[1;31m"

namespace Terminal

def dimCode : Text := "\x1b[2m"

def resetCode : Text := "\x1b[0m"

/-- The width of the column of verbs. -/
def verbWidth : Nat := 12

def paint (t : Terminal) (code text : Text) : Text :=
  if t.color then code ++ text ++ resetCode else text

def dim (t : Terminal) (text : Text) : Text :=
  t.paint dimCode text

/-! ## Status lines -/

def line (t : Terminal) (tone : Tone) (verb text : Text) : Text :=
  t.paint tone.code (Text.padLeft verbWidth verb) ++ " " ++ text ++ "\n"

/-- A line that a quiet run leaves out. -/
def progress (t : Terminal) (tone : Tone) (verb text : Text) : Text :=
  if t.quiet then [] else t.line tone verb text

def status (t : Terminal) (verb text : Text) : Text :=
  t.progress .green verb text

def info (t : Terminal) (verb text : Text) : Text :=
  t.progress .cyan verb text

def success (t : Terminal) (verb text : Text) : Text :=
  t.line .green verb text

def warning (t : Terminal) (verb text : Text) : Text :=
  t.line .yellow verb text

def error (t : Terminal) (verb text : Text) : Text :=
  t.line .red verb text

/-! ## Diagnostics -/

def severityTone (isWarning : Bool) : Tone :=
  if isWarning then .yellow else .cyan

/-- A label in the colour of its severity. -/
def severity (t : Terminal) (label : Text) (isWarning : Bool) : Text :=
  t.paint (severityTone isWarning).code label

def helpLine (t : Terminal) (help : Text) : Text :=
  "    " ++ t.dim "help" ++ ": " ++ help ++ "\n"

def diagnostic (t : Terminal) (d : Diagnostic) : Text :=
  let label := t.severity d.severity.word (d.severity = .warning)
  d.lineWith label ++ "\n" ++
    (match d.help with
    | some help => t.helpLine help
    | none => [])

/-- A line with a list, or nothing for the empty list. -/
def summary (title : Text) (items : List Text) : Text :=
  if items = [] then [] else title ++ Text.join ", " items ++ "\n"

def unassociatedItem (entry : Text × Nat) : Text :=
  entry.1 ++ " (" ++ Text.ofNat entry.2 ++ ")"

/-- Every diagnostic of a collection and the two summaries. -/
def diagnostics (t : Terminal) (ds : Diagnostics) : Text :=
  (ds.list.map t.diagnostic).flatten ++
    summary "Units outside the allow-list: " ds.invalidUnits.names ++
    summary "Unassociated constants: " (ds.unassociated.entries.map unassociatedItem)

end Terminal

end MessageDocs
