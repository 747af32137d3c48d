import MessageDocs.Text

/-! # UTF-8

Decoding of byte sequences. A sequence is cut into characters and ill-formed pieces, an ill-formed
piece being as long as it could still have become a character. `Utf8.decode?` accepts sequences of
characters only, and `Utf8.decodeLossy` puts the replacement character for every other piece.
-/

set_option autoImplicit false

namespace MessageDocs.Text.Utf8

/-- A character of which the first bytes have been read. -/
structure Pending where
  /-- How many bytes are missing. -/
  owed : Nat
  /-- The least and the greatest byte that may come next. -/
  low : Nat
  high : Nat
  value : Nat

/-- A piece that the byte completes, if any, and the character that it begins, if any. -/
structure Step where
  pieces : List (Option Char) := []
  pending : Option Pending := none

/-- The step of a byte at the start of a character. -/
def start (b : Nat) : Step :=
  if b ≤ 0x7F then { pieces := [some (Char.ofNat b)] }
  else if 0xC2 ≤ b ∧ b ≤ 0xDF then { pending := some ⟨1, 0x80, 0xBF, b - 0xC0⟩ }
  else if b = 0xE0 then { pending := some ⟨2, 0xA0, 0xBF, 0⟩ }
  else if b = 0xED then { pending := some ⟨2, 0x80, 0x9F, 0xD⟩ }
  else if 0xE1 ≤ b ∧ b ≤ 0xEF then { pending := some ⟨2, 0x80, 0xBF, b - 0xE0⟩ }
  else if b = 0xF0 then { pending := some ⟨3, 0x90, 0xBF, 0⟩ }
  else if 0xF1 ≤ b ∧ b ≤ 0xF3 then { pending := some ⟨3, 0x80, 0xBF, b - 0xF0⟩ }
  else if b = 0xF4 then { pending := some ⟨3, 0x80, 0x8F, 4⟩ }
  else { pieces := [none] }

/-- The step of a byte inside a character. A byte that does not fit starts a piece of its own. -/
def continued (p : Pending) (b : Nat) : Step :=
  if p.low ≤ b ∧ b ≤ p.high then
    let value := 64 * p.value + (b - 0x80)
    if p.owed = 1 then { pieces := [some (Char.ofNat value)] }
    else { pending := some ⟨p.owed - 1, 0x80, 0xBF, value⟩ }
  else
    { start b with pieces := none :: (start b).pieces }

def piecesFrom : Option Pending → List UInt8 → List (Option Char)
  | none, [] => []
  | some _, [] => [none]
  | none, b :: rest => (start b.toNat).pieces ++ piecesFrom (start b.toNat).pending rest
  | some p, b :: rest => (continued p b.toNat).pieces ++ piecesFrom (continued p b.toNat).pending rest

/-- The characters and, as `none`, the ill-formed pieces of a byte sequence. -/
def pieces (bytes : List UInt8) : List (Option Char) :=
  piecesFrom none bytes

def decode? (bytes : List UInt8) : Option Text :=
  (pieces bytes).mapM id

def decodeLossy (bytes : List UInt8) : Text :=
  (pieces bytes).map (·.getD '\ufffd')

end MessageDocs.Text.Utf8
