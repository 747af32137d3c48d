import MessageDocs.Message
import MessageDocs.Roster

/-! # Association of constants with enumerations

A schema does not say to which enumeration a constant belongs; the names do. A rule decides which
enumerations claim a constant, and of those the one with the longest name receives it.

* `Matching.claims` are the two rules of the program: the enumeration's name begins the constant's
  name, with or without an underscore after it.
* `Association.associate` distributes constants under an arbitrary rule.
-/

set_option autoImplicit false

namespace MessageDocs

/-- The rule by which enumerations claim constants. -/
inductive Matching where
  /-- The constant's name starts with the enumeration's name. -/
  | byPrefix
  /-- The constant's name starts with the enumeration's name and an underscore. -/
  | delimited
  deriving DecidableEq, Repr, Inhabited

namespace Matching

def claims : Matching → Text → Text → Bool
  | byPrefix, enum, constant => Text.startsWith enum constant
  | delimited, enum, constant => Text.startsWith (enum ++ "_") constant

/-- The word that selects a rule. -/
def word : Matching → Text
  | byPrefix => "prefix"
  | delimited => "delimited"

def all : List Matching :=
  [byPrefix, delimited]

def ofWord? (t : Text) : Option Matching :=
  all.find? fun m => m.word = t

end Matching

namespace Association

/-- The name with the most bytes, the last of several. -/
def longest? : List Text → Option Text
  | [] => none
  | name :: rest =>
    match longest? rest with
    | none => some name
    | some other => if name.byteLength ≤ other.byteLength then some other else some name

/-- The name of the enumeration that receives a constant. -/
def owner? (claims : Text → Text → Bool) (enums : List Enumeration) (constant : Text) :
    Option Text :=
  longest? ((enums.map Enumeration.name).filter (claims · constant))

/-- The enumerations after the one of the given name has received a constant. -/
def receive (owner : Text) (c : Constant) (enums : List Enumeration) : List Enumeration :=
  enums.map fun e =>
    if e.name = owner then { e with values := Roster.put Constant.name c e.values } else e

/-- Enumerations with their values, and the constants that none of them has claimed. -/
structure Shares where
  enums : List Enumeration
  loose : List Constant
  deriving DecidableEq, Repr

/-- The shares after one more constant has found its place. -/
def Shares.place (claims : Text → Text → Bool) (s : Shares) (c : Constant) : Shares :=
  match owner? claims s.enums c.name with
  | some owner => { s with enums := receive owner c s.enums }
  | none => { s with loose := s.loose ++ [c] }

/-- The constants distributed, in order, among the enumerations and the loose ones. -/
def associate (claims : Text → Text → Bool) (enums : List Enumeration)
    (constants : List Constant) : Shares :=
  constants.foldl (Shares.place claims) ⟨enums, []⟩

end Association

end MessageDocs
