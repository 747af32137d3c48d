import MessageDocs.Text.Utf8

/-! # YAML tags

A tag is a sequence of bytes, because the percent signs of its address may write bytes that are no
text. A zero byte ends it.
-/

set_option autoImplicit false

namespace MessageDocs.Yaml

abbrev Tag := List UInt8

namespace Tag

/-- The tag of a text, all of whose characters are single bytes. -/
def ofText (t : Text) : Tag :=
  t.map fun c => UInt8.ofNat c.toNat

/-- What precedes the first zero byte. -/
def beforeNul (tag : Tag) : Tag :=
  tag.takeWhile (· != 0)

/-- The tag `!`, which names no type. -/
def nonSpecific : Tag := ofText "!"

/-- The tag of the value that is none. -/
def null : Tag := ofText "tag:yaml.org,2002:null"

/-- The name in a tag that begins with `!`, when it is a text. -/
def localName? (tag : Tag) : Option Text :=
  match tag with
  | [] => none
  | first :: name => if first = 0x21 then Text.Utf8.decode? name else none

end Tag

end MessageDocs.Yaml
