import MessageDocs.Path

/-! # Diagnostics

A diagnostic is a remark on a schema that does not keep it from being documented.
-/

set_option autoImplicit false

namespace MessageDocs

inductive Severity where
  | note
  | warning
  deriving DecidableEq, Repr

def Severity.word : Severity → Text
  | note => "note"
  | warning => "warning"

/-- Where a remark belongs. -/
inductive Place where
  | nowhere
  | file (path : Path)
  | line (path : Path) (line : Nat)
  deriving DecidableEq, Repr

namespace Place

def path? : Place → Option Path
  | nowhere => none
  | file path => some path
  | line path _ => some path

def line? : Place → Option Nat
  | line _ n => some n
  | _ => none

/-- The path, with the line number after it when there is one. -/
def text? : Place → Option Text
  | nowhere => none
  | file path => some path.text
  | line path n => some (path.text ++ ":" ++ Text.ofNat n)

end Place

structure Diagnostic where
  severity : Severity
  code : Text
  message : Text
  help : Option Text := none
  place : Place := .nowhere
  deriving DecidableEq, Repr

namespace Diagnostic

/-! ## Codes -/

def unknownUnit : Text := "msgdoc::unit::unknown"
def internalComment : Text := "msgdoc::comment::internal"
def topics : Text := "msgdoc::topics::unsupported"
def unassociated : Text := "msgdoc::enum::unassociated"
def emptyEnum : Text := "msgdoc::enum::empty"
def duplicateMessage : Text := "msgdoc::message::duplicate"

/-! ## Text -/

/-- The line of a diagnostic behind a label for its severity. -/
def lineWith (label : Text) (d : Diagnostic) : Text :=
  label ++ "[" ++ d.code ++ "]: " ++
    (match d.place.text? with
    | some place => place ++ ": "
    | none => []) ++ d.message

def text (d : Diagnostic) : Text :=
  d.lineWith d.severity.word

end Diagnostic

end MessageDocs
