import MessageDocs.Diagnostic
import MessageDocs.NameMap

/-! # Collections of diagnostics

A collection keeps the diagnostics in the order in which they came, and beside them two summaries:
the units outside the allow-list, and how many constants each message left without an enumeration.
-/

set_option autoImplicit false

namespace MessageDocs

structure Diagnostics where
  list : List Diagnostic := []
  invalidUnits : NameSet := NameMap.empty
  /-- The number of loose constants by message name. -/
  unassociated : NameMap Nat := NameMap.empty
  deriving DecidableEq

namespace Diagnostics

def push (ds : Diagnostics) (d : Diagnostic) : Diagnostics :=
  { ds with list := ds.list ++ [d] }

def recordInvalidUnit (ds : Diagnostics) (unit : Text) : Diagnostics :=
  { ds with invalidUnits := ds.invalidUnits.add unit }

def recordUnassociated (ds : Diagnostics) (message : Text) (count : Nat) : Diagnostics :=
  { ds with unassociated := ds.unassociated.insert message count }

/-- All that either collection holds; of two counts for one message the second stays. -/
def merge (ds other : Diagnostics) : Diagnostics where
  list := ds.list ++ other.list
  invalidUnits := ds.invalidUnits.union other.invalidUnits
  unassociated := ds.unassociated.union other.unassociated

def unassociatedCount (ds : Diagnostics) (message : Text) : Nat :=
  (ds.unassociated.find? message).getD 0

def warningCount (ds : Diagnostics) : Nat :=
  ds.list.countP (·.severity = .warning)

def hasWarnings (ds : Diagnostics) : Bool :=
  ds.list.any (·.severity = .warning)

def countCode (ds : Diagnostics) (code : Text) : Nat :=
  ds.list.countP (·.code = code)

end Diagnostics

end MessageDocs
