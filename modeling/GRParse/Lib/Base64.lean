import Mathlib

/-!
# Base64

Three bytes are written as four digits of six bits, the most significant first.  One or two bytes
that are left over are filled up with zero bits, and with pads to four digits.  `Encodes` relates
the bytes to their text, over any alphabet; either determines the other.
-/

namespace Base64

/-- Sixty-four digits, and a pad that is none of them. -/
structure Alphabet (α : Type) where
  digit : Fin 64 → α
  pad : α
  injective : Function.Injective digit
  digit_ne_pad : ∀ d, digit d ≠ pad

variable {α : Type} (A : Alphabet α)

/-- The text of some bytes. -/
inductive Encodes : List UInt8 → List α → Prop
  | nil : Encodes [] []
  | one {x : UInt8} {p q : Fin 64} (bits : x.toNat * 2 ^ 4 = p * 2 ^ 6 + q) :
      Encodes [x] [A.digit p, A.digit q, A.pad, A.pad]
  | two {x y : UInt8} {p q r : Fin 64}
      (bits : (x.toNat * 2 ^ 8 + y.toNat) * 2 ^ 2 = p * 2 ^ 12 + q * 2 ^ 6 + r) :
      Encodes [x, y] [A.digit p, A.digit q, A.digit r, A.pad]
  | three {x y z : UInt8} {p q r s : Fin 64} {bytes : List UInt8} {text : List α}
      (bits : x.toNat * 2 ^ 16 + y.toNat * 2 ^ 8 + z.toNat =
        p * 2 ^ 18 + q * 2 ^ 12 + r * 2 ^ 6 + s)
      (rest : Encodes bytes text) :
      Encodes (x :: y :: z :: bytes)
        (A.digit p :: A.digit q :: A.digit r :: A.digit s :: text)

variable {A} {bytes bytes' : List UInt8} {text text' : List α}

/-- Bytes have one text. -/
theorem Encodes.text_unique (h : Encodes A bytes text) (h' : Encodes A bytes text') :
  text = text'
  := by
  induction h generalizing text' with
  | nil =>
    cases h'
    rfl
  | @one x p q bits =>
    cases h' with
    | @one _ p' q' bits' =>
      obtain ⟨rfl, rfl⟩ : p = p' ∧ q = q' := by omega
      rfl
  | @two x y p q r bits =>
    cases h' with
    | @two _ _ p' q' r' bits' =>
      obtain ⟨rfl, rfl, rfl⟩ : p = p' ∧ q = q' ∧ r = r' := by omega
      rfl
  | @three x y z p q r s bytes text bits rest ih =>
    cases h' with
    | @three _ _ _ p' q' r' s' _ text' bits' rest' =>
      obtain ⟨rfl, rfl, rfl, rfl⟩ : p = p' ∧ q = q' ∧ r = r' ∧ s = s' := by omega
      rw [ih rest']

/-- Only no bytes have an empty text. -/
theorem Encodes.eq_nil_iff (h : Encodes A bytes text) :
  text = [] ↔ bytes = []
  := by
  cases h <;> simp

/-- The digits and the pads of a text come in fours. -/
theorem Encodes.four_dvd_length (h : Encodes A bytes text) :
  4 ∣ text.length
  := by
  induction h with
  | nil => exact Nat.dvd_zero 4
  | one => exact Nat.dvd_refl 4
  | two => exact Nat.dvd_refl 4
  | three _ _ ih =>
    simp only [List.length_cons]
    omega

/-- A text is made of digits and pads. -/
theorem Encodes.mem (h : Encodes A bytes text) :
  ∀ a ∈ text, a = A.pad ∨ ∃ d, a = A.digit d
  := by
  induction h with
  | nil => simp
  | one => simp
  | two => simp
  | three _ _ ih => simpa using ih

end Base64
