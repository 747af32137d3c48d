import Mathlib.Data.List.Basic
import MessageDocs.Text

/-! # The order of texts is the order of their bytes

Texts are compared character by character. UTF-8 keeps this order: of two characters the greater one
has the greater byte where their encodings part, so two texts compare as their bytes do.
-/

set_option autoImplicit false

namespace MessageDocs.Text

/-- The UTF-8 form of a text. -/
def bytes (t : Text) : List UInt8 :=
  t.flatMap String.utf8EncodeChar

variable {a b : Char} {s t : Text}

theorem utf8EncodeChar_append_lt (h : a < b) (x y : List UInt8) :
    String.utf8EncodeChar a ++ x < String.utf8EncodeChar b ++ y := by
  have less : a.val.toNat < b.val.toNat := h
  have bound : b.val.toNat < 0x110000 := b.valid.elim (by omega) fun h => h.2
  have square (n : Nat) : n / 4096 = n / 64 / 64 := by omega
  have cube (n : Nat) : n / 262144 = n / 64 / 64 / 64 := by omega
  unfold String.utf8EncodeChar
  generalize a.val.toNat = m at *
  generalize b.val.toNat = n at *
  dsimp only
  -- One case for each pair of lengths, from one byte to four; the first byte tells lengths apart.
  repeat' split
  all_goals
    simp only [List.cons_append, List.nil_append, List.cons_lt_cons_iff, UInt8.lt_iff_toNat_lt,
      ← UInt8.toNat_inj, UInt8.toNat_ofNat', square, cube]
    omega

theorem bytes_cons (c : Char) (t : Text) : bytes (c :: t) = String.utf8EncodeChar c ++ bytes t :=
  List.flatMap_cons

theorem bytes_lt (h : s < t) : bytes s < bytes t := by
  induction s generalizing t with
  | nil =>
    cases t with
    | nil => exact absurd h (List.lt_irrefl [])
    | cons d t =>
      obtain ⟨b, rest, eq⟩ := List.exists_cons_of_ne_nil (String.utf8EncodeChar_ne_nil (c := d))
      rw [bytes_cons, eq]
      exact List.nil_lt_cons b _
  | cons c s ih =>
    cases t with
    | nil => exact absurd h (List.not_lt_nil _)
    | cons d t =>
      rw [bytes_cons, bytes_cons]
      rcases List.cons_lt_cons_iff.mp h with less | ⟨rfl, less⟩
      · exact utf8EncodeChar_append_lt less _ _
      · exact List.append_left_lt (ih less)

/-- **Texts** are in the order of their bytes. -/
theorem bytes_lt_iff : bytes s < bytes t ↔ s < t := by
  refine ⟨fun h => ?_, bytes_lt⟩
  rcases Std.lt_trichotomy s t with less | same | greater
  · exact less
  · rw [same] at h
    exact absurd h (List.lt_irrefl _)
  · exact absurd (bytes_lt greater) (List.lt_asymm h)

end MessageDocs.Text
