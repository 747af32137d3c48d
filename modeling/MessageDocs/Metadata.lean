import MessageDocs.Text

/-! # Field metadata

A field comment may begin with tags in brackets, as in

    [m/s] [@range 0,40] [@invalid -1] ground speed

A tag without `@` is a unit, `@enum` lists enum names, `@range` gives two bounds and `@invalid` a
sentinel value; the text after the last leading tag is the description. Of two tags of a kind the
later one counts.

* `Metadata.splitTags` separates the leading tags from the rest.
* `Metadata.read` reads a whole comment.
-/

set_option autoImplicit false

namespace MessageDocs

/-- What a field comment says. -/
structure Metadata where
  description : Text := []
  unit : Option Text := none
  enumTags : List Text := []
  minimum : Option Text := none
  maximum : Option Text := none
  invalid : Option Text := none
  deriving DecidableEq, Repr

/-- Why a tag cannot be read. Both causes carry the tag. -/
inductive MetadataError where
  | unknownTag (tag : Text)
  | malformedRange (tag : Text)
  deriving DecidableEq, Repr

namespace MetadataError

def message : MetadataError → Text
  | unknownTag tag => "unknown metadata tag [" ++ tag ++ "]"
  | malformedRange tag =>
    "malformed range [" ++ tag ++ "]: expected two comma-separated bounds"

def help : MetadataError → Text
  | unknownTag _ =>
    "Supported tags are [unit], [@enum NAME...], [@range lo,hi] and [@invalid value]"
  | malformedRange _ => "Write ranges as [@range lo,hi]"

end MetadataError

namespace Metadata

/-! ## Leading tags -/

/-- The inside of a leading tag, and what follows the tag and the white space after it. -/
def takeTag? : Text → Option (Text × Text)
  | '[' :: inner => (Text.cutAt ']' inner).map fun cut => (cut.1, Text.trimStart cut.2)
  | _ => none

/-- At most `n` leading tags, and the rest. -/
def takeTags : Nat → Text → List Text × Text
  | 0, t => ([], t)
  | n + 1, t =>
    match takeTag? t with
    | none => ([], t)
    | some (tag, rest) =>
      let more := takeTags n rest
      (tag :: more.1, more.2)

/-- All leading tags of a comment, and the rest. A comment has fewer tags than characters. -/
def splitTags (comment : Text) : List Text × Text :=
  takeTags comment.length comment

/-! ## Reading tags -/

/-- The bounds of a range, trimmed, when there are exactly two and neither is empty. -/
def bounds? (t : Text) : Option (Text × Text) :=
  match (Text.split (· == ',') t).map Text.trim with
  | [lo, hi] => if lo ≠ [] ∧ hi ≠ [] then some (lo, hi) else none
  | _ => none

/-- The metadata with one more trimmed tag taken into account. -/
def addTag (m : Metadata) (tag : Text) : Except MetadataError Metadata :=
  if tag.head? ≠ some '@' then
    .ok { m with unit := some tag }
  else if (Text.after? "@enum" tag).isSome then
    .ok { m with enumTags := (Text.words tag).tail }
  else
    match Text.after? "@range" tag with
    | some bounds =>
      match bounds? bounds with
      | some (lo, hi) => .ok { m with minimum := some lo, maximum := some hi }
      | none => .error (.malformedRange tag)
    | none =>
      match Text.after? "@invalid" tag with
      | some value => .ok { m with invalid := some (Text.trim value) }
      | none => .error (.unknownTag tag)

/-- The metadata with a list of tags taken into account, up to the first that cannot be read. -/
def addTags (m : Metadata) : List Text → Except MetadataError Metadata
  | [] => .ok m
  | tag :: tags =>
    match addTag m (Text.trim tag) with
    | .ok m => addTags m tags
    | .error e => .error e

/-- The metadata of a comment; a field without a comment has none. -/
def read (comment : Option Text) : Except MetadataError Metadata :=
  let parts := splitTags (Text.trim (comment.getD []))
  addTags { description := Text.trim parts.2 } parts.1

end Metadata

end MessageDocs
