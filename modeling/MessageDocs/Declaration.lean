import MessageDocs.Text

/-! # Declarations

A declaration line is `TYPE NAME` for a field or `TYPE NAME = VALUE` for a constant, followed by a
comment after `#`. The declaration ends before the first `#`, and the comment begins after the
last one; a line is a constant exactly when its declaration has a `=`.

* `Declaration.classify` reads a line.
* `Declaration.print` writes a declaration in the form in which it is read back.
-/

set_option autoImplicit false

namespace MessageDocs

inductive Declaration where
  | field (typeName name : Text) (comment : Option Text)
  | constant (typeName name value : Text) (comment : Option Text)
  deriving DecidableEq, Repr

/-- Why a line declares nothing. -/
inductive DeclarationError where
  | missingFieldName (declaration : Text)
  | missingConstantName (declaration : Text)
  | missingValue (name : Text)
  deriving DecidableEq, Repr

namespace DeclarationError

def message : DeclarationError → Text
  | missingFieldName declaration => "field declaration `" ++ declaration ++ "` is missing a name"
  | missingConstantName declaration =>
    "constant declaration `" ++ declaration ++ "` is missing a name"
  | missingValue name => "constant '" ++ name ++ "' has no value"

def help : DeclarationError → Text
  | missingFieldName _ => "Fields are declared as `TYPE NAME`"
  | missingConstantName _ => "Constants are declared as `TYPE NAME = VALUE`"
  | missingValue _ => "Constants are declared as `TYPE NAME = VALUE`"

end DeclarationError

namespace Declaration

/-! ## Reading -/

/-- A text, or nothing for the empty one. -/
def nonEmpty? (t : Text) : Option Text :=
  if t = [] then none else some t

/-- The declaration and the comment of a line, both trimmed. -/
def splitComment (line : Text) : Text × Option Text :=
  match Text.cutAt '#' line with
  | some (declaration, _) =>
    (Text.trim declaration, nonEmpty? (Text.trim (Text.afterLast '#' line)))
  | none => (Text.trim line, none)

def classify (line : Text) : Except DeclarationError Declaration :=
  let (declaration, comment) := splitComment line
  match Text.cutAt '=' declaration with
  | some (left, value) =>
    match Text.words left with
    | typeName :: name :: _ =>
      if Text.trim value = [] then
        .error (.missingValue name)
      else
        .ok (.constant typeName name (Text.trim value) comment)
    | _ => .error (.missingConstantName declaration)
  | none =>
    match Text.words declaration with
    | typeName :: name :: _ => .ok (.field typeName name comment)
    | _ => .error (.missingFieldName declaration)

/-! ## Writing -/

def printComment : Option Text → Text
  | some comment => " # " ++ comment
  | none => []

def print : Declaration → Text
  | field typeName name comment => typeName ++ " " ++ name ++ printComment comment
  | constant typeName name value comment =>
    typeName ++ " " ++ name ++ " = " ++ value ++ printComment comment

end Declaration

end MessageDocs
