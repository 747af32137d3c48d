import MessageDocs.Path

/-! # Failures

What stops the reading of a file or the running of a command. Each failure has a one-line text and
a code; all but an access failure may carry advice.
-/

set_option autoImplicit false

namespace MessageDocs

inductive Failure where
  /-- A file or directory that could not be used. -/
  | access (path : Path) (message : Text)
  /-- A schema with a line that declares nothing; only this file is skipped. -/
  | schema (path : Path) (line : Nat) (message : Text) (help : Option Text)
  /-- A manifest that cannot be read. -/
  | config (message : Text) (help : Option Text)
  /-- A command that cannot do its work. -/
  | build (message : Text) (help : Option Text)
  deriving DecidableEq, Repr

namespace Failure

def text : Failure → Text
  | access path message => "IO error with " ++ path.text ++ ": " ++ message
  | schema path line message _ =>
    path.text ++ ":" ++ Text.ofNat line ++ ": " ++ message
  | config message _ => "Config error: " ++ message
  | build message _ => "Build error: " ++ message

def code : Failure → Text
  | access .. => "msgdoc::io"
  | schema .. => "msgdoc::schema"
  | config .. => "msgdoc::config"
  | build .. => "msgdoc::build"

def help? : Failure → Option Text
  | access .. => none
  | schema _ _ _ help => help
  | config _ help => help
  | build _ help => help

def line? : Failure → Option Nat
  | schema _ line _ _ => some line
  | _ => none

end Failure

end MessageDocs
