import GRParse.Lib.Json

/-!
# References and escapes of CommonMark

Where a CommonMark parser reads a text that is no code, it decodes the references to characters and
the escapes with a backslash.  The names of entities are a parameter.
-/

namespace CommonMark

open Json (isDigit hexValue)

def isAlpha (byte : UInt8) : Bool :=
  (0x41 ≤ byte && byte ≤ 0x5a) || (0x61 ≤ byte && byte ≤ 0x7a)

def isAlphanumeric (byte : UInt8) : Bool :=
  isDigit byte || isAlpha byte

/-- An ASCII punctuation character. -/
def isPunctuation (byte : UInt8) : Bool :=
  0x21 ≤ byte && byte ≤ 0x7e && !isAlphanumeric byte

/-- The text `amp`. -/
def kAmp : List UInt8 :=
  [0x61, 0x6d, 0x70]

/-- What is known of the names of entities: they are letters and digits, and `amp` is one. -/
structure IsEntityTable (names : List UInt8 → Option (List UInt8)) : Prop where
  alphanumeric : ∀ name text, names name = some text →
    name ≠ [] ∧ ∀ byte ∈ name, isAlphanumeric byte
  amp : names kAmp = some [0x26]

/-- The character of a number; the replacement character for zero and for what is none. -/
def codePoint (value : ℕ) : List UInt8 :=
  if value ≠ 0 ∧ value.isValidChar then String.utf8EncodeChar (Char.ofNat value)
  else String.utf8EncodeChar (Char.ofNat 0xfffd)

def decimalValue (digits : List UInt8) : ℕ :=
  digits.foldl (fun value digit => value * 10 + (digit.toNat - 0x30)) 0

def hexadecimalValue (digits : List UInt8) : ℕ :=
  digits.foldl (fun value digit => value * 16 + (hexValue digit).getD 0) 0

variable (names : List UInt8 → Option (List UInt8))

/-- What a reference stands for, by what is between its ampersand and its semicolon. -/
def referred (body : List UInt8) : Option (List UInt8) :=
  match body with
  | 0x23 :: digits =>
    if digits.head? = some 0x78 ∨ digits.head? = some 0x58 then
      if digits.tail ≠ [] ∧ digits.tail.length ≤ 6 ∧ digits.tail.all fun digit =>
          (hexValue digit).isSome then
        some (codePoint (hexadecimalValue digits.tail))
      else none
    else if digits ≠ [] ∧ digits.length ≤ 7 ∧ digits.all isDigit then
      some (codePoint (decimalValue digits))
    else none
  | name => names name

/-- The reference behind an ampersand: what it stands for, and how long it is. -/
def reference (text : List UInt8) : Option (List UInt8 × ℕ) :=
  let body := text.takeWhile (· ≠ 0x3b)
  if (text.dropWhile (· ≠ 0x3b)).head? = some 0x3b then
    (referred names body).map fun char => (char, body.length + 1)
  else none

/-- The text with its references and escapes decoded. -/
def decode : List UInt8 → List UInt8
  | [] => []
  | byte :: rest =>
    if byte = 0x26 then
      match reference names rest with
      | some (char, length) => char ++ decode (rest.drop length)
      | none => byte :: decode rest
    else if byte = 0x5c ∧ rest.head?.any isPunctuation then rest.take 1 ++ decode (rest.drop 1)
    else byte :: decode rest
termination_by text => text.length

variable {names}

theorem decode_nil :
  decode names [] = []
  := by
  rw [decode]

/-- A byte that begins no reference and no escape is kept. -/
theorem decode_cons {byte : UInt8} (hamp : byte ≠ 0x26) (hbackslash : byte ≠ 0x5c)
    (rest : List UInt8) :
  decode names (byte :: rest) = byte :: decode names rest
  := by
  rw [decode, if_neg hamp, if_neg (hbackslash ·.1)]

theorem decode_amp {rest : List UInt8} (h : reference names rest = none) :
  decode names (0x26 :: rest) = 0x26 :: decode names rest
  := by
  rw [decode, if_pos rfl, h]

theorem decode_reference {rest char : List UInt8} {length : ℕ}
    (h : reference names rest = some (char, length)) :
  decode names (0x26 :: rest) = char ++ decode names (rest.drop length)
  := by
  rw [decode, if_pos rfl, h]

theorem reference_amp (h : IsEntityTable names) (rest : List UInt8) :
  reference names (kAmp ++ 0x3b :: rest) = some ([0x26], 4)
  := by
  have hbody : (kAmp ++ 0x3b :: rest).takeWhile (· ≠ 0x3b) = kAmp := by
    simp [kAmp]
  have hrest : (kAmp ++ 0x3b :: rest).dropWhile (· ≠ 0x3b) = 0x3b :: rest := by
    simp [kAmp]
  have hreferred : referred names kAmp = some [0x26] := h.amp
  rw [reference, hbody, hrest, hreferred]
  rfl

/-- A byte that a reference may be made of, between its ampersand and its semicolon. -/
theorem isAlphanumeric_of_hexValue {byte : UInt8} (h : (hexValue byte).isSome) :
  isAlphanumeric byte
  := by
  rw [hexValue] at h
  rw [isAlphanumeric, Bool.or_eq_true]
  split_ifs at h with hdigit hlower hupper
  · exact Or.inl hdigit
  · right
    rw [Bool.and_eq_true, decide_eq_true_eq, decide_eq_true_eq] at hlower
    have hle : byte ≤ 0x7a := UInt8.le_trans hlower.2 (by decide)
    simp [isAlpha, hlower.1, hle]
  · right
    rw [Bool.and_eq_true, decide_eq_true_eq, decide_eq_true_eq] at hupper
    have hle : byte ≤ 0x5a := UInt8.le_trans hupper.2 (by decide)
    simp [isAlpha, hupper.1, hle]
  · cases h

/-- Between the ampersand and the semicolon of a reference there are letters and digits, and a
number sign may be before them. -/
theorem referred_spec (h : IsEntityTable names) {body char : List UInt8}
    (hbody : referred names body = some char) :
  ∃ name, name ≠ [] ∧ (∀ byte ∈ name, isAlphanumeric byte) ∧ (body = 0x23 :: name ∨ body = name)
  := by
  unfold referred at hbody
  split at hbody
  case h_1 digits =>
    split at hbody
    case isTrue hx =>
      obtain ⟨hdigits, hmem⟩ : digits.tail.all (fun digit => (hexValue digit).isSome) ∧
          digits.head?.all isAlphanumeric := by
        constructor
        · split at hbody
          case isTrue hall => exact hall.2.2
          case isFalse => cases hbody
        · rcases hx with hx | hx <;> rw [hx] <;> rfl
      cases digits with
      | nil => simp at hx
      | cons first digits =>
        refine ⟨first :: digits, List.cons_ne_nil _ _, ?_, Or.inl rfl⟩
        rw [List.forall_mem_cons]
        refine ⟨hmem, fun byte hbyte => ?_⟩
        exact isAlphanumeric_of_hexValue (List.all_eq_true.mp hdigits byte hbyte)
    case isFalse =>
      split at hbody
      case isTrue hall =>
        refine ⟨digits, hall.1, fun byte hbyte => ?_, Or.inl rfl⟩
        rw [isAlphanumeric, List.all_eq_true.mp hall.2.2 byte hbyte, Bool.true_or]
      case isFalse => cases hbody
  case h_2 =>
    obtain ⟨hne, hall⟩ := h.alphanumeric body char hbody
    exact ⟨body, hne, hall, Or.inr rfl⟩

/-- A reference is letters and digits between an ampersand and a semicolon, and a number sign may
be before them. -/
theorem reference_spec (h : IsEntityTable names) {text char : List UInt8} {length : ℕ}
    (htext : reference names text = some (char, length)) :
  ∃ name rest, name ≠ [] ∧ (∀ byte ∈ name, isAlphanumeric byte) ∧
    (text = 0x23 :: name ++ 0x3b :: rest ∨ text = name ++ 0x3b :: rest)
  := by
  rw [reference] at htext
  split at htext
  case isTrue hend =>
    obtain ⟨_, hreferred, -⟩ := Option.map_eq_some_iff.mp htext
    obtain ⟨name, hne, hall, hbody⟩ := referred_spec h hreferred
    obtain ⟨rest, hrest⟩ := List.head?_eq_some_iff.mp hend
    have htext := List.takeWhile_append_dropWhile (p := (· ≠ (0x3b : UInt8))) (l := text)
    rw [hrest] at htext
    refine ⟨name, rest, hne, hall, ?_⟩
    rcases hbody with hbody | hbody <;> rw [hbody] at htext
    · exact Or.inl htext.symm
    · exact Or.inr htext.symm
  case isFalse => cases htext

end CommonMark
