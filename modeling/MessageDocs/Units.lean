import MessageDocs.NameMap

/-! # Measurement units

The units a field may declare without a remark. Unit names are compared letter by letter, so `mA`
and `MA` are different units.
-/

set_option autoImplicit false

namespace MessageDocs.Units

/-- The units that are allowed when a project names none. -/
def standardNames : List Text :=
  ["m", "m/s", "rad", "rad/s", "rpm", "V", "A", "mA", "mAh", "W", "dBm", "s", "ms", "us", "Ohm",
   "MB", "Kb/s"]

def standard : NameSet :=
  NameSet.ofList standardNames

/-- A set of units with further ones allowed. -/
def withExtra (units : NameSet) (extra : List Text) : NameSet :=
  extra.foldl NameSet.add units

end MessageDocs.Units
