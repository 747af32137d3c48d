import MessageDocs.Page.Message
import MessageDocs.Sorting

/-! # The index page

The index lists every message of a batch with its short description, versioned messages before
the others, and each group in ascending order of names.
-/

set_option autoImplicit false

namespace MessageDocs.Page.Index

def fileName : Text := "index.md"

/-- The messages in ascending order of names; messages of one name keep their order. -/
def sorted (messages : List Message) : List Message :=
  sortedBy Message.name messages

/-- The short description behind a dash, unless it has no text. -/
def remark (m : Message) : Text :=
  if m.short = [] then [] else " — " ++ m.short

def entry (m : Message) : Text :=
  "- " ++ link m.name m.pageName ++ remark m ++ "\n"

/-- A group of messages under its heading, or nothing for no messages. -/
def group (heading : Text) (messages : List Message) : Text :=
  if messages = [] then
    []
  else
    "## " ++ heading ++ "\n\n" ++ (messages.map entry).flatten ++ "\n"

def render (context : Context) (messages : List Message) : Text :=
  let messages := sorted messages
  "# " ++ context.title ++ "\n\n" ++
    group "Versioned Messages" (messages.filter (·.isVersioned)) ++
    group "Unversioned Messages" (messages.filter (!·.isVersioned))

end MessageDocs.Page.Index
