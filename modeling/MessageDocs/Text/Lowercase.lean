import MessageDocs.Text.CaseTable

/-! # Lower case

The lower case of a text is taken character by character, with the two exceptions that the Unicode
standard makes for every language: `İ` becomes two characters, and a capital sigma becomes the
final form when it ends a word, that is when a cased character precedes it and none follows it,
characters without case of their own being skipped in both searches.
-/

set_option autoImplicit false

namespace MessageDocs.Text

/-- The code points of a run and their distance to lower case. -/
def CaseRun.lower? (run : CaseRun) (n : Nat) : Option Nat :=
  if run.first ≤ n ∧ n ≤ run.last ∧ (n - run.first) % run.step = 0 then
    some (run.lower + (n - run.first))
  else
    none

/-- The lower case of a character outside the two exceptions. -/
def lowerChar (c : Char) : Char :=
  match caseRuns.findSome? (·.lower? c.toNat) with
  | some n => Char.ofNat n
  | none => c

def inRanges (ranges : List (Nat × Nat)) (c : Char) : Bool :=
  ranges.any fun r => r.1 ≤ c.toNat && c.toNat ≤ r.2

/-- Whether the first character that is not ignorable is cased. -/
def cased? (t : Text) : Bool :=
  match t.dropWhile (inRanges caseIgnorableRanges) with
  | [] => false
  | c :: _ => inRanges casedRanges c

/-- The lower case of one character, given what precedes it (read backwards) and what follows. -/
def lowerAt (before : Text) (c : Char) (after : Text) : Text :=
  if c = 'İ' then
    ['i', '\u0307']
  else if c = 'Σ' then
    [if cased? before && !cased? after then 'ς' else 'σ']
  else
    [lowerChar c]

def lowerFrom (before : Text) : Text → Text
  | [] => []
  | c :: rest => lowerAt before c rest ++ lowerFrom (c :: before) rest

def lower (t : Text) : Text :=
  lowerFrom [] t

end MessageDocs.Text
