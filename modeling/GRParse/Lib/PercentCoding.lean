import GRParse.Lib.Json

/-!
# Percent-encoding

A class of bytes is written as a percent sign and two hexadecimal digits each.  The percent sign
itself is left alone, so that what was encoded before stays what it was; decoding tells no
difference between a text and the encoded text.
-/

namespace Percent

open List

open Json (hexValue)

/-- An uppercase hexadecimal digit. -/
def hexDigit (value : UInt8) : UInt8 :=
  if value < 10 then 0x30 + value else 0x37 + value

def encodeByte (byte : UInt8) : List UInt8 :=
  [0x25, hexDigit (byte >>> 4), hexDigit (byte &&& 0xf)]

/-- The text with the bytes of a class encoded. -/
def encode (escaped : UInt8 → Bool) (text : List UInt8) : List UInt8 :=
  text.flatMap fun byte => if escaped byte then encodeByte byte else [byte]

/-- The byte that is encoded at the front of a text. -/
def octet : List UInt8 → Option UInt8
  | percent :: high :: low :: _ =>
    if percent = 0x25 then do
      let high ← hexValue high
      let low ← hexValue low
      return .ofNat (high * 16 + low)
    else none
  | _ => none

def decode : List UInt8 → List UInt8
  | [] => []
  | byte :: rest =>
    match octet (byte :: rest) with
    | some value => value :: decode (rest.drop 2)
    | none => byte :: decode rest
termination_by text => text.length

variable {escaped : UInt8 → Bool} {byte : UInt8}

theorem encode_cons_escaped (h : escaped byte) (rest : List UInt8) :
  encode escaped (byte :: rest) =
    0x25 :: hexDigit (byte >>> 4) :: hexDigit (byte &&& 0xf) :: encode escaped rest
  := by
  rw [encode, flatMap_cons, if_pos h]
  rfl

theorem encode_cons_kept (h : escaped byte = false) (rest : List UInt8) :
  encode escaped (byte :: rest) = byte :: encode escaped rest
  := by
  rw [encode, flatMap_cons, h]
  rfl

/-- What comes first in the encoded text, other than a percent sign, comes first in the text. -/
theorem of_encode_cons {text rest : List UInt8} (hbyte : byte ≠ 0x25)
    (h : encode escaped text = byte :: rest) :
  ∃ after, text = byte :: after ∧ rest = encode escaped after
  := by
  cases text with
  | nil => cases h
  | cons first after =>
    by_cases hescaped : escaped first
    · rw [encode_cons_escaped hescaped] at h
      exact absurd (cons.inj h).1.symm hbyte
    · rw [encode_cons_kept (by simpa using hescaped)] at h
      obtain ⟨rfl, rfl⟩ := cons.inj h
      exact ⟨after, rfl, rfl⟩

theorem of_encode_append {front rest text : List UInt8} (hfront : 0x25 ∉ front)
    (h : encode escaped text = front ++ rest) :
  ∃ after, text = front ++ after ∧ rest = encode escaped after
  := by
  induction front generalizing text with
  | nil => exact ⟨text, rfl, h.symm⟩
  | cons byte front ih =>
    rw [mem_cons, not_or] at hfront
    obtain ⟨after, rfl, hafter⟩ := of_encode_cons (Ne.symm hfront.1) h
    obtain ⟨after, rfl, hrest⟩ := ih hfront.2 hafter.symm
    exact ⟨after, rfl, hrest⟩

/-! ### Decoding -/

theorem hexValue_hexDigit {value : UInt8} (h : value.toNat < 16) :
  hexValue (hexDigit value) = some value.toNat
  := by
  have hall : ∀ digit : Fin 16, hexValue (hexDigit (UInt8.ofNat digit.val)) = some digit.val := by
    decide
  have hvalue := hall ⟨value.toNat, h⟩
  rwa [UInt8.ofNat_toNat] at hvalue

theorem octet_encodeByte (byte : UInt8) (rest : List UInt8) :
  octet (0x25 :: hexDigit (byte >>> 4) :: hexDigit (byte &&& 0xf) :: rest) = some byte
  := by
  have hbyte := byte.toNat_lt
  have hhigh : (byte >>> 4).toNat = byte.toNat / 16 := by
    rw [UInt8.toNat_shiftRight, Nat.shiftRight_eq_div_pow]
    rfl
  have hlow : (byte &&& 0xf).toNat = byte.toNat % 16 := by
    rw [UInt8.toNat_and]
    exact Nat.and_two_pow_sub_one_eq_mod byte.toNat 4
  have hvalue : byte.toNat / 16 * 16 + byte.toNat % 16 = byte.toNat := Nat.div_add_mod' _ _
  rw [octet, if_pos rfl, hexValue_hexDigit (by omega), hexValue_hexDigit (by omega), hhigh, hlow]
  simp only [Option.bind_eq_bind, Option.bind_some, hvalue, UInt8.ofNat_toNat]
  rfl

theorem octet_of_ne (h : byte ≠ 0x25) (rest : List UInt8) :
  octet (byte :: rest) = none
  := by
  match rest with
  | [] => rfl
  | [_] => rfl
  | _ :: _ :: _ => exact if_neg h

theorem decode_nil :
  decode [] = []
  := by
  rw [decode]

theorem decode_none {rest : List UInt8} (h : octet (byte :: rest) = none) :
  decode (byte :: rest) = byte :: decode rest
  := by
  rw [decode, h]

theorem decode_some {byte value : UInt8} {rest : List UInt8}
    (h : octet (byte :: rest) = some value) :
  decode (byte :: rest) = value :: decode (rest.drop 2)
  := by
  rw [decode, h]

/-- An encoded byte is the percent sign and two digits. -/
theorem octet_eq_some_iff {text : List UInt8} {value : UInt8} :
  octet text = some value ↔ ∃ high low rest, text = 0x25 :: high :: low :: rest ∧
    ∃ a b, hexValue high = some a ∧ hexValue low = some b ∧ value = .ofNat (a * 16 + b)
  := by
  match text with
  | [] => simp [octet]
  | [_] => simp [octet]
  | [_, _] => simp [octet]
  | percent :: high :: low :: rest =>
    by_cases hpercent : percent = 0x25
    · subst hpercent
      cases ha : hexValue high <;> cases hb : hexValue low <;> simp [octet, ha, hb, eq_comm]
    · simp [octet, hpercent]

/-- Decoding does not tell whether a text was encoded. -/
theorem decode_encode (hpercent : escaped 0x25 = false)
    (hdigit : ∀ byte, escaped byte → hexValue byte = none) (text : List UInt8) :
  decode (encode escaped text) = decode text
  := by
  induction hlength : text.length using Nat.strong_induction_on generalizing text with
  | _ length ih =>
    cases text with
    | nil => rfl
    | cons byte rest =>
      have hrest : decode (encode escaped rest) = decode rest :=
        ih rest.length (by simp at hlength; omega) rest rfl
      by_cases hescaped : escaped byte
      · have hne : byte ≠ 0x25 := by
          rintro rfl
          rw [hpercent] at hescaped
          cases hescaped
        rw [encode_cons_escaped hescaped, decode_some (octet_encodeByte byte _),
          decode_none (octet_of_ne hne rest), ← hrest]
        rfl
      · rw [encode_cons_kept (by simpa using hescaped)]
        cases hoctet : octet (byte :: rest) with
        | some value =>
          obtain ⟨high, low, after, heq, a, b, ha, hb, -⟩ := octet_eq_some_iff.mp hoctet
          obtain ⟨rfl, rfl⟩ := cons.inj heq
          have hkept : ∀ digit value, hexValue digit = some value → escaped digit = false := by
            intro digit value hvalue
            rw [Bool.eq_false_iff]
            intro h
            rw [hdigit digit h] at hvalue
            cases hvalue
          rw [decode_some hoctet]
          have hoctet' : octet (0x25 :: encode escaped (high :: low :: after)) = some value := by
            rw [encode_cons_kept (hkept high a ha), encode_cons_kept (hkept low b hb),
              ← hoctet]
            rfl
          rw [decode_some hoctet', encode_cons_kept (hkept high a ha),
            encode_cons_kept (hkept low b hb)]
          simp only [drop_succ_cons, drop_zero]
          rw [ih after.length (by simp at hlength; omega) after rfl]
        | none =>
          rw [decode_none hoctet, decode_none, hrest]
          rw [Option.eq_none_iff_forall_ne_some]
          intro value hvalue
          obtain ⟨high, low, after, heq, a, b, ha, hb, -⟩ := octet_eq_some_iff.mp hvalue
          obtain ⟨rfl, hafter⟩ := cons.inj heq
          have hne : ∀ digit value, hexValue digit = some value → digit ≠ 0x25 := by
            rintro digit value hvalue rfl
            cases hvalue
          obtain ⟨after, rfl, hlow⟩ := of_encode_cons (hne high a ha) hafter
          obtain ⟨after, rfl, -⟩ := of_encode_cons (hne low b hb) hlow.symm
          have hsome := octet_eq_some_iff.mpr ⟨high, low, after, rfl, a, b, ha, hb, rfl⟩
          rw [hoctet] at hsome
          cases hsome

end Percent
