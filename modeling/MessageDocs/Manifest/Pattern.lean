import MessageDocs.Text

/-! # Exclude patterns

A pattern excludes paths by their text. `dir/*`, also written `**/dir/*`, excludes what lies in a
directory `dir` at any depth; `*tail` excludes paths with that ending; `**/part` and every other
pattern exclude the paths that contain them.
-/

set_option autoImplicit false

namespace MessageDocs.Manifest.Pattern

/-- Whether a path lies in a directory, at its start or further inside. -/
def isUnder (dir path : Text) : Bool :=
  Text.startsWith (dir ++ "/") path || Text.occursIn ("/" ++ dir ++ "/") path

/-- The meanings of a pattern. -/
inductive Rule where
  | under (dir : Text)
  | endsWith (tail : Text)
  | contains (part : Text)
  deriving DecidableEq, Repr

def ruleOf (pattern : Text) : Rule :=
  match Text.after? "**/" pattern with
  | some rest =>
    match Text.before? "/*" rest with
    | some dir => .under dir
    | none => .contains rest
  | none =>
    match pattern with
    | '*' :: tail =>
      if pattern.contains '/' then
        match Text.before? "/*" pattern with
        | some dir => .under dir
        | none => .contains pattern
      else
        .endsWith tail
    | _ =>
      match Text.before? "/*" pattern with
      | some dir => .under dir
      | none => .contains pattern

def Rule.excludes (path : Text) : Rule → Bool
  | under dir => isUnder dir path
  | endsWith tail => Text.endsWith tail path
  | contains part => Text.occursIn part path

def excludes (pattern path : Text) : Bool :=
  (ruleOf pattern).excludes path

end MessageDocs.Manifest.Pattern
