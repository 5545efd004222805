import GRParse.Lib.Base64
import Mathlib.Data.List.GetD
import Mathlib.Tactic.Linarith

/-!
# Base64 of a request's file

The scalar decoder and encoder, which say what is accepted and what it means.  The decoder leaves
out white space, takes whole quads, and ignores the bits behind the last byte; the encoder writes
these bits as zeros.
-/

namespace GRParse.Codec

open List Base64.Encodes Nat

/-! ### The alphabet -/

def kAlphabet : List UInt8 :=
  "ABCDEFGHIJKLMNOPQRSTUVWXYZabcdefghijklmnopqrstuvwxyz0123456789+/".toList.map Char.toUInt8

def kInvalid : UInt8 := 255

/-- `=`. -/
def kPad : UInt8 := 0x3D

/-- The value of a digit, and of what is none. -/
def table (character : UInt8) : UInt8 :=
  if 0x41 ≤ character ∧ character ≤ 0x5A then character - 0x41
  else if 0x61 ≤ character ∧ character ≤ 0x7A then 26 + (character - 0x61)
  else if 0x30 ≤ character ∧ character ≤ 0x39 then 52 + (character - 0x30)
  else if character = 0x2B then 62
  else if character = 0x2F then 63
  else kInvalid

/-- The digit with a value. -/
@[irreducible]
def digit (value : Fin 64) : UInt8 :=
  kAlphabet.getD value 0

theorem table_digit (value : Fin 64) :
  table (digit value) = UInt8.ofNat value
  := by
  revert value
  decide +kernel

/-- What has a value is a digit. -/
theorem exists_digit {character : UInt8} (h : table character ≠ kInvalid) :
  ∃ value, digit value = character
  := by
  have hall : ∀ n : Fin 256, table (UInt8.ofNat n) ≠ kInvalid →
      digit (Fin.ofNat 64 (table (UInt8.ofNat n)).toNat) = UInt8.ofNat n := by
    decide +kernel
  have hcharacter : UInt8.ofNat character.toNat = character := UInt8.ofNat_toNat
  have hdigit := hall ⟨character.toNat, character.toNat_lt⟩
  rw [hcharacter] at hdigit
  exact ⟨_, hdigit h⟩

theorem table_digit_ne (value : Fin 64) :
  table (digit value) ≠ kInvalid
  := by
  intro h
  have hvalue := congrArg UInt8.toNat h
  rw [table_digit, UInt8.toNat_ofNat'] at hvalue
  have hinvalid : kInvalid.toNat = 255 := rfl
  omega

/-- The alphabet of the requests. -/
def alphabet : Base64.Alphabet UInt8 where
  digit := digit
  pad := kPad
  injective p q h := by
    have htable := congrArg UInt8.toNat (congrArg table h)
    rw [table_digit, table_digit, UInt8.toNat_ofNat', UInt8.toNat_ofNat'] at htable
    omega
  digit_ne_pad value h := table_digit_ne value (congrArg table h)

/-! ### The decoder -/

def kNotBase64 : String := "file.base64_string is not valid base64"

/-- `std::isspace`. -/
def isspace (character : UInt8) : Bool :=
  character = 0x20 || (0x09 ≤ character && character ≤ 0x0D)

/-- A value without its white space. -/
def compact (value : List UInt8) : List UInt8 :=
  value.filter fun character => !isspace character

/-- Whether a quad is refused, where others may follow it. -/
def refused (first second third fourth : UInt8) (rest : List UInt8) : Bool :=
  first = kPad || second = kPad || table first = kInvalid || table second = kInvalid ||
    (third ≠ kPad && table third = kInvalid) || (fourth ≠ kPad && table fourth = kInvalid) ||
    (third = kPad && fourth ≠ kPad) || ((third = kPad || fourth = kPad) && !rest.isEmpty)

/-- The bytes of a quad. -/
def quadBytes (first second third fourth : UInt8) : List UInt8 :=
  let a := table first
  let b := table second
  let c := if third = kPad then 0 else table third
  let d := if fourth = kPad then 0 else table fourth
  [a <<< 2 ||| b >>> 4] ++
    (if third ≠ kPad then [(b &&& 0x0F) <<< 4 ||| c >>> 2] else []) ++
    if fourth ≠ kPad then [(c &&& 0x03) <<< 6 ||| d] else []

/-- The loop over the quads; what is left over at the end is too short to be one. -/
def decodeQuads : List UInt8 → Except String (List UInt8)
  | first :: second :: third :: fourth :: rest =>
    if refused first second third fourth rest then .error kNotBase64
    else (decodeQuads rest).map (quadBytes first second third fourth ++ ·)
  | _ => .ok []

/-- `scalar_decode_base64`. -/
def scalarDecodeBase64 (value : List UInt8) : Except String (List UInt8) :=
  let compact := compact value
  if compact.isEmpty || compact.length % 4 ≠ 0 then .error kNotBase64
  else decodeQuads compact

/-! ### The encoder -/

/-- The digit at some bits of a chunk. -/
def digitAt (chunk shift : ℕ) : UInt8 :=
  kAlphabet.getD (chunk >>> shift &&& 0x3F) 0

/-- `scalar_encode_base64`. -/
def scalarEncodeBase64 : List UInt8 → List UInt8
  | first :: second :: third :: rest =>
    let chunk := first.toNat <<< 16 ||| second.toNat <<< 8 ||| third.toNat
    digitAt chunk 18 :: digitAt chunk 12 :: digitAt chunk 6 :: digitAt chunk 0 ::
      scalarEncodeBase64 rest
  | [first] =>
    let chunk := first.toNat <<< 16
    [digitAt chunk 18, digitAt chunk 12, kPad, kPad]
  | [first, second] =>
    let chunk := first.toNat <<< 16 ||| second.toNat <<< 8
    [digitAt chunk 18, digitAt chunk 12, digitAt chunk 6, kPad]
  | [] => []

/-! ### What the encoder writes -/

theorem digitAt_eq {chunk shift : ℕ} {value : Fin 64} (h : chunk / 2 ^ shift % 64 = value) :
  digitAt chunk shift = digit value
  := by
  rw [digitAt, digit, shiftRight_eq_div_pow, ← h]
  congr 1
  exact and_two_pow_sub_one_eq_mod _ 6

theorem chunk_eq (first second third : UInt8) :
  first.toNat <<< 16 ||| second.toNat <<< 8 ||| third.toNat =
    first.toNat * 2 ^ 16 + second.toNat * 2 ^ 8 + third.toNat
  := by
  have hfirst := first.toNat_lt
  have hsecond := second.toNat_lt
  have hthird := third.toNat_lt
  have hlow : second.toNat <<< 8 ||| third.toNat = second.toNat * 2 ^ 8 + third.toNat := by
    rw [← Nat.shiftLeft_add_eq_or_of_lt hthird, Nat.shiftLeft_eq]
  rw [Nat.or_assoc, hlow, ← Nat.shiftLeft_add_eq_or_of_lt (by omega), Nat.shiftLeft_eq]
  omega

/-- Six bits of a number. -/
def bits (number shift : ℕ) : Fin 64 :=
  ⟨number / 2 ^ shift % 64, Nat.mod_lt _ (by decide)⟩

theorem encodes_scalarEncodeBase64 (bytes : List UInt8) :
  Base64.Encodes alphabet bytes (scalarEncodeBase64 bytes)
  := by
  fun_induction scalarEncodeBase64 bytes with
  | case1 first second third rest chunk ih =>
    have hchunk : chunk = _ := chunk_eq first second third
    have hfirst := first.toNat_lt
    have hsecond := second.toNat_lt
    have hthird := third.toNat_lt
    rw [@digitAt_eq chunk 18 (bits chunk 18) rfl, @digitAt_eq chunk 12 (bits chunk 12) rfl,
      @digitAt_eq chunk 6 (bits chunk 6) rfl, @digitAt_eq chunk 0 (bits chunk 0) rfl]
    apply three _ ih
    simp only [bits]
    omega
  | case2 first chunk =>
    have hchunk : chunk = first.toNat * 2 ^ 16 := shiftLeft_eq _ _
    have hfirst := first.toNat_lt
    rw [@digitAt_eq chunk 18 (bits chunk 18) rfl, @digitAt_eq chunk 12 (bits chunk 12) rfl]
    apply one
    simp only [bits]
    omega
  | case3 first second chunk =>
    have hchunk : chunk = first.toNat * 2 ^ 16 + second.toNat * 2 ^ 8 := by
      simpa using chunk_eq first second 0
    have hfirst := first.toNat_lt
    have hsecond := second.toNat_lt
    rw [@digitAt_eq chunk 18 (bits chunk 18) rfl, @digitAt_eq chunk 12 (bits chunk 12) rfl,
      @digitAt_eq chunk 6 (bits chunk 6) rfl]
    apply two
    simp only [bits]
    omega
  | case4 => exact .nil

/-! ### What the decoder takes -/

section

variable (p q r s : Fin 64)

/-- Bits put before those of a smaller number. -/
theorem shiftLeft_or {x y : UInt8} {i : UInt8} (hi : i.toNat < 8)
    (hx : x.toNat * 2 ^ i.toNat < 256) (hy : y.toNat < 2 ^ i.toNat) :
  x <<< i ||| y = UInt8.ofNat (x.toNat * 2 ^ i.toNat + y.toNat)
  := by
  apply UInt8.toNat_inj.mp
  have hsum : x.toNat * 2 ^ i.toNat + y.toNat = x.toNat <<< i.toNat ||| y.toNat := by
    rw [← shiftLeft_add_eq_or_of_lt hy, shiftLeft_eq]
  rw [hsum, UInt8.toNat_or, UInt8.toNat_shiftLeft, UInt8.toNat_ofNat', mod_eq_of_lt hi,
    mod_eq_of_lt (by rwa [shiftLeft_eq]), mod_eq_of_lt]
  apply or_lt_two_pow
  · rwa [shiftLeft_eq]
  · exact y.toNat_lt

/-- A quad of digits is three bytes. -/
theorem quadBytes_digits :
  quadBytes (digit p) (digit q) (digit r) (digit s) =
    [UInt8.ofNat (p * 4 + q / 16), UInt8.ofNat (q % 16 * 16 + r / 4), UInt8.ofNat (r % 4 * 64 + s)]
  := by
  have hvalue : ∀ p : Fin 64, (UInt8.ofNat p).toNat = p := by decide +kernel
  have hfirst : ∀ p q : Fin 64, UInt8.ofNat p <<< 2 ||| UInt8.ofNat q >>> 4 =
      UInt8.ofNat (p * 4 + q / 16) := by
    intro p q
    have hlow : ∀ q : Fin 64, (UInt8.ofNat q >>> 4).toNat = q / 16 := by decide +kernel
    have hshift : (2 : UInt8).toNat = 2 := rfl
    rw [shiftLeft_or (by decide), hvalue, hlow, hshift]
    · rfl
    · rw [hvalue, hshift]
      omega
    · rw [hlow, hshift]
      omega
  have hsecond : ∀ q r : Fin 64, (UInt8.ofNat q &&& 0x0F) <<< 4 ||| UInt8.ofNat r >>> 2 =
      UInt8.ofNat (q % 16 * 16 + r / 4) := by
    intro q r
    have hhigh : ∀ q : Fin 64, (UInt8.ofNat q &&& 0x0F).toNat = q % 16 := by decide +kernel
    have hlow : ∀ r : Fin 64, (UInt8.ofNat r >>> 2).toNat = r / 4 := by decide +kernel
    have hshift : (4 : UInt8).toNat = 4 := rfl
    rw [shiftLeft_or (by decide), hhigh, hlow, hshift]
    · rfl
    · rw [hhigh, hshift]
      omega
    · rw [hlow, hshift]
      omega
  have hthird : ∀ r s : Fin 64, (UInt8.ofNat r &&& 0x03) <<< 6 ||| UInt8.ofNat s =
      UInt8.ofNat (r % 4 * 64 + s) := by
    intro r s
    have hhigh : ∀ r : Fin 64, (UInt8.ofNat r &&& 0x03).toNat = r % 4 := by decide +kernel
    have hshift : (6 : UInt8).toNat = 6 := rfl
    rw [shiftLeft_or (by decide), hhigh, hvalue, hshift]
    · rfl
    · rw [hhigh, hshift]
      omega
    · rw [hvalue, hshift]
      omega
  have hr : digit r ≠ kPad := alphabet.digit_ne_pad r
  have hs : digit s ≠ kPad := alphabet.digit_ne_pad s
  simp only [quadBytes, table_digit, if_neg hr, if_neg hs, if_pos hr, if_pos hs, hfirst, hsecond,
    hthird, cons_append, nil_append]

theorem quadBytes_one_pad :
  quadBytes (digit p) (digit q) (digit r) kPad =
    [UInt8.ofNat (p * 4 + q / 16), UInt8.ofNat (q % 16 * 16 + r / 4)]
  := by
  have h := quadBytes_digits p q r 0
  have hr : digit r ≠ kPad := alphabet.digit_ne_pad r
  have hzero : digit 0 ≠ kPad := alphabet.digit_ne_pad 0
  simp only [quadBytes, if_pos hr, if_neg hr, if_pos hzero, if_neg hzero, cons_append,
    nil_append, cons.injEq] at h
  simp [quadBytes, hr, h]

theorem quadBytes_two_pads :
  quadBytes (digit p) (digit q) kPad kPad = [UInt8.ofNat (p * 4 + q / 16)]
  := by
  have h := quadBytes_digits p q 0 0
  have hzero : digit 0 ≠ kPad := alphabet.digit_ne_pad 0
  simp only [quadBytes, if_pos hzero, if_neg hzero, cons_append,
    nil_append, cons.injEq] at h
  simp [quadBytes, h]

end

/-- A quad is taken when it is all digits, or the last one and has one or two pads at its end. -/
inductive Quad : UInt8 → UInt8 → UInt8 → UInt8 → List UInt8 → Prop
  | digits (p q r s : Fin 64) (rest : List UInt8) :
      Quad (digit p) (digit q) (digit r) (digit s) rest
  | onePad (p q r : Fin 64) : Quad (digit p) (digit q) (digit r) kPad []
  | twoPads (p q : Fin 64) : Quad (digit p) (digit q) kPad kPad []

theorem not_refused_iff {first second third fourth : UInt8} {rest : List UInt8} :
  refused first second third fourth rest = false ↔ Quad first second third fourth rest
  := by
  constructor
  · intro h
    simp only [refused, Bool.or_eq_false_iff, Bool.and_eq_false_iff, decide_eq_false_iff_not,
      List.isEmpty_iff, not_not, Bool.not_eq_eq_eq_not, Bool.not_false] at h
    obtain ⟨⟨⟨⟨⟨⟨⟨hfirst, hsecond⟩, hp⟩, hq⟩, hthird⟩, hfourth⟩, hpads⟩, hlast⟩ := h
    obtain ⟨p, rfl⟩ := exists_digit hp
    obtain ⟨q, rfl⟩ := exists_digit hq
    by_cases hr : third = kPad
    · subst hr
      obtain rfl : fourth = kPad := hpads.resolve_left (by simp)
      obtain rfl : rest = [] := hlast.resolve_left (by simp)
      exact .twoPads p q
    obtain ⟨r, rfl⟩ := exists_digit (hthird.resolve_left hr)
    by_cases hs : fourth = kPad
    · subst hs
      obtain rfl : rest = [] := hlast.resolve_left (by simp)
      exact .onePad p q r
    obtain ⟨s, rfl⟩ := exists_digit (hfourth.resolve_left hs)
    exact .digits p q r s rest
  · intro h
    have hpad : ∀ d, digit d ≠ kPad := alphabet.digit_ne_pad
    cases h <;> simp [refused, hpad, table_digit_ne]

variable {first second third fourth : UInt8} {text rest bytes : List UInt8}

theorem decodeQuads_of_quad (h : Quad first second third fourth rest) :
  decodeQuads (first :: second :: third :: fourth :: rest) =
    (decodeQuads rest).map (quadBytes first second third fourth ++ ·)
  := by
  rw [decodeQuads, if_neg (Bool.eq_false_iff.mp (not_refused_iff.mpr h))]

theorem quad_of_decodeQuads
    (h : decodeQuads (first :: second :: third :: fourth :: rest) = .ok bytes) :
  Quad first second third fourth rest ∧ ∃ bytes', decodeQuads rest = .ok bytes' ∧
    bytes = quadBytes first second third fourth ++ bytes'
  := by
  rw [decodeQuads] at h
  split at h
  case isTrue => cases h
  case isFalse htaken =>
    refine ⟨not_refused_iff.mp (Bool.eq_false_iff.mpr htaken), ?_⟩
    cases hrest : decodeQuads rest with
    | error => simp [hrest, Except.map] at h
    | ok bytes' => exact ⟨bytes', rfl, by simpa [hrest, Except.map] using h.symm⟩

/-- The text of some bytes is decoded to these. -/
theorem decodeQuads_of_encodes (h : Base64.Encodes alphabet bytes text) :
  decodeQuads text = .ok bytes
  := by
  induction h with
  | nil => rfl
  | @one x p q bits =>
    have hx := x.toNat_lt
    have hfirst : UInt8.ofNat (p * 4 + q / 16) = x := by
      apply UInt8.toNat_inj.mp
      rw [UInt8.toNat_ofNat']
      omega
    have hdecode := decodeQuads_of_quad (Quad.twoPads p q)
    rw [quadBytes_two_pads, hfirst] at hdecode
    exact hdecode
  | @two x y p q r bits =>
    have hx := x.toNat_lt
    have hy := y.toNat_lt
    have hfirst : UInt8.ofNat (p * 4 + q / 16) = x := by
      apply UInt8.toNat_inj.mp
      rw [UInt8.toNat_ofNat']
      omega
    have hsecond : UInt8.ofNat (q % 16 * 16 + r / 4) = y := by
      apply UInt8.toNat_inj.mp
      rw [UInt8.toNat_ofNat']
      omega
    have hdecode := decodeQuads_of_quad (Quad.onePad p q r)
    rw [quadBytes_one_pad, hfirst, hsecond] at hdecode
    exact hdecode
  | @three x y z p q r s bytes text bits rest ih =>
    have hx := x.toNat_lt
    have hy := y.toNat_lt
    have hz := z.toNat_lt
    have hfirst : UInt8.ofNat (p * 4 + q / 16) = x := by
      apply UInt8.toNat_inj.mp
      rw [UInt8.toNat_ofNat']
      omega
    have hsecond : UInt8.ofNat (q % 16 * 16 + r / 4) = y := by
      apply UInt8.toNat_inj.mp
      rw [UInt8.toNat_ofNat']
      omega
    have hthird : UInt8.ofNat (r % 4 * 64 + s) = z := by
      apply UInt8.toNat_inj.mp
      rw [UInt8.toNat_ofNat']
      omega
    have hdecode := decodeQuads_of_quad (Quad.digits p q r s text)
    rw [quadBytes_digits, hfirst, hsecond, hthird, ih] at hdecode
    exact hdecode

/-- The bits of the last quad that the decoder leaves out. -/
def discardedBits : List UInt8 → UInt8
  | _ :: second :: third :: fourth :: rest =>
    if !rest.isEmpty then discardedBits rest
    else if third = kPad then table second &&& 0x0F
    else if fourth = kPad then table third &&& 0x03
    else 0
  | _ => 0

/-- What is decoded without leaving out any bits is the text of its bytes. -/
theorem encodes_of_decodeQuads (h : decodeQuads text = .ok bytes) (hlength : 4 ∣ text.length)
    (hdiscarded : discardedBits text = 0) :
  Base64.Encodes alphabet bytes text
  := by
  fun_induction decodeQuads text generalizing bytes with
  | case1 => cases h
  | case2 first second third fourth rest htaken ih =>
    have hdecoded : decodeQuads (first :: second :: third :: fourth :: rest) = .ok bytes := by
      rw [decodeQuads, if_neg htaken]
      exact h
    obtain ⟨hquad, bytes', hrest, rfl⟩ := quad_of_decodeQuads hdecoded
    cases hquad with
    | digits p q r s =>
      have hnone : discardedBits rest = 0 := by
        cases rest with
        | nil => rfl
        | cons next rest => exact hdiscarded
      have hfour : 4 ∣ rest.length := by
        simp only [length_cons] at hlength
        omega
      rw [quadBytes_digits]
      apply three _ (ih hrest hfour hnone)
      simp only [UInt8.toNat_ofNat']
      omega
    | onePad p q r =>
      obtain rfl : bytes' = [] := (Except.ok.inj hrest).symm
      have hr : digit r ≠ kPad := alphabet.digit_ne_pad r
      have hlow : r.val % 4 = 0 := by
        have hmask : ∀ r : Fin 64, UInt8.ofNat r &&& 0x03 = 0 → r.val % 4 = 0 := by decide +kernel
        apply hmask
        simpa [discardedBits, hr, table_digit] using hdiscarded
      rw [quadBytes_one_pad]
      apply two
      simp only [UInt8.toNat_ofNat']
      omega
    | twoPads p q =>
      obtain rfl : bytes' = [] := (Except.ok.inj hrest).symm
      have hlow : q.val % 16 = 0 := by
        have hmask : ∀ q : Fin 64, UInt8.ofNat q &&& 0x0F = 0 → q.val % 16 = 0 := by
          decide +kernel
        apply hmask
        simpa [discardedBits, table_digit] using hdiscarded
      rw [quadBytes_two_pads]
      apply one
      simp only [UInt8.toNat_ofNat']
      omega
  | case3 text hshort =>
    obtain rfl : bytes = [] := (Except.ok.inj h).symm
    match text, hshort, hlength with
    | [], _, _ => exact .nil
    | [_], _, hlength => simp at hlength
    | [_, _], _, hlength => simp at hlength
    | [_, _, _], _, hlength => simp at hlength
    | _ :: _ :: _ :: _ :: _, hshort, _ => exact absurd rfl (hshort _ _ _ _ _)

/-! ### The grammar -/

/-- Characters of the alphabet, and then at most two pads. -/
def Padded (text : List UInt8) : Prop :=
  ∃ characters pads, text = characters ++ List.replicate pads kPad ∧ pads ≤ 2 ∧
    ∀ character ∈ characters, character ∈ kAlphabet

/-- A text of whole quads, with its pads at the end. -/
structure WellFormed (text : List UInt8) : Prop where
  nonempty : text ≠ []
  fours : 4 ∣ text.length
  padded : Padded text

theorem mem_kAlphabet_iff {character : UInt8} :
  character ∈ kAlphabet ↔ ∃ value, digit value = character
  := by
  have hlength : kAlphabet.length = 64 := by decide +kernel
  rw [mem_iff_get]
  constructor
  · rintro ⟨⟨i, hi⟩, rfl⟩
    refine ⟨⟨i, by omega⟩, ?_⟩
    rw [digit, getD_eq_getElem _ _ hi]
    rfl
  · rintro ⟨value, rfl⟩
    refine ⟨⟨value, by omega⟩, ?_⟩
    rw [digit, getD_eq_getElem _ _ (by omega)]
    rfl

theorem digit_mem (value : Fin 64) :
  digit value ∈ kAlphabet
  := mem_kAlphabet_iff.mpr ⟨value, rfl⟩

theorem padded_cons_digits (p q r s : Fin 64) (h : Padded rest) :
  Padded (digit p :: digit q :: digit r :: digit s :: rest)
  := by
  obtain ⟨characters, pads, rfl, hpads, hcharacters⟩ := h
  refine ⟨digit p :: digit q :: digit r :: digit s :: characters, pads, rfl, hpads, ?_⟩
  simpa [digit_mem] using hcharacters

/-- The first four characters of a padded text are a quad, and the rest is padded. -/
theorem quad_of_padded (hlength : 4 ∣ rest.length)
    (h : Padded (first :: second :: third :: fourth :: rest)) :
  Quad first second third fourth rest ∧ Padded rest
  := by
  obtain ⟨characters, pads, htext, hpads, hcharacters⟩ := h
  have hcount := congrArg length htext
  simp only [length_cons, length_append, length_replicate] at hcount
  match characters, htext, hcount, hcharacters with
  | [], _, hcount, _ => simp at hcount; omega
  | [_], _, hcount, _ => simp at hcount; omega
  | [a, b], htext, hcount, hcharacters =>
    obtain rfl : pads = 2 := by simp at hcount; omega
    obtain ⟨rfl, rfl, rfl, rfl, rfl⟩ : first = a ∧ second = b ∧ third = kPad ∧ fourth = kPad ∧
      rest = [] := by simpa using htext
    obtain ⟨p, rfl⟩ := mem_kAlphabet_iff.mp (hcharacters first (by simp))
    obtain ⟨q, rfl⟩ := mem_kAlphabet_iff.mp (hcharacters second (by simp))
    exact ⟨.twoPads p q, [], 0, rfl, by simp, by simp⟩
  | [a, b, c], htext, hcount, hcharacters =>
    obtain rfl : pads = 1 := by simp at hcount; omega
    obtain ⟨rfl, rfl, rfl, rfl, rfl⟩ : first = a ∧ second = b ∧ third = c ∧ fourth = kPad ∧
      rest = [] := by simpa using htext
    obtain ⟨p, rfl⟩ := mem_kAlphabet_iff.mp (hcharacters first (by simp))
    obtain ⟨q, rfl⟩ := mem_kAlphabet_iff.mp (hcharacters second (by simp))
    obtain ⟨r, rfl⟩ := mem_kAlphabet_iff.mp (hcharacters third (by simp))
    exact ⟨.onePad p q r, [], 0, rfl, by simp, by simp⟩
  | a :: b :: c :: d :: characters, htext, _, hcharacters =>
    obtain ⟨rfl, rfl, rfl, rfl, rfl⟩ : first = a ∧ second = b ∧ third = c ∧ fourth = d ∧
      rest = characters ++ replicate pads kPad := by simpa using htext
    obtain ⟨p, rfl⟩ := mem_kAlphabet_iff.mp (hcharacters first (by simp))
    obtain ⟨q, rfl⟩ := mem_kAlphabet_iff.mp (hcharacters second (by simp))
    obtain ⟨r, rfl⟩ := mem_kAlphabet_iff.mp (hcharacters third (by simp))
    obtain ⟨s, rfl⟩ := mem_kAlphabet_iff.mp (hcharacters fourth (by simp))
    refine ⟨.digits p q r s _, characters, pads, rfl, hpads, ?_⟩
    exact fun character hmem => hcharacters character (by simp [hmem])

theorem exists_decodeQuads_iff (hlength : 4 ∣ text.length) :
  (∃ bytes, decodeQuads text = .ok bytes) ↔ Padded text
  := by
  fun_induction decodeQuads text with
  | case1 first second third fourth rest hrefused =>
    have hrest : 4 ∣ rest.length := by
      simp only [length_cons] at hlength
      omega
    constructor
    · rintro ⟨bytes, h⟩
      cases h
    · intro h
      have hquad := not_refused_iff.mpr (quad_of_padded hrest h).1
      exact absurd hrefused (Bool.eq_false_iff.mp hquad)
  | case2 first second third fourth rest htaken ih =>
    have hrest : 4 ∣ rest.length := by
      simp only [length_cons] at hlength
      omega
    have hquad := not_refused_iff.mp (Bool.eq_false_iff.mpr htaken)
    constructor
    · rintro ⟨bytes, h⟩
      cases hdecode : decodeQuads rest with
      | error => simp [hdecode, Except.map] at h
      | ok bytes' =>
        have hpadded := (ih hrest).mp ⟨bytes', hdecode⟩
        cases hquad with
        | digits p q r s => exact padded_cons_digits p q r s hpadded
        | onePad p q r =>
          exact ⟨[digit p, digit q, digit r], 1, rfl, by simp, by simp [digit_mem]⟩
        | twoPads p q => exact ⟨[digit p, digit q], 2, rfl, by simp, by simp [digit_mem]⟩
    · intro h
      obtain ⟨bytes', hdecode⟩ := (ih hrest).mpr (quad_of_padded hrest h).2
      rw [hdecode]
      exact ⟨_, rfl⟩
  | case3 text hshort =>
    refine ⟨fun _ => ?_, fun _ => ⟨[], rfl⟩⟩
    match text, hshort, hlength with
    | [], _, _ => exact ⟨[], 0, rfl, by simp, by simp⟩
    | [_], _, hlength => simp at hlength
    | [_, _], _, hlength => simp at hlength
    | [_, _, _], _, hlength => simp at hlength
    | _ :: _ :: _ :: _ :: _, hshort, _ => exact absurd rfl (hshort _ _ _ _ _)

/-! ### Round trips -/

variable {value : List UInt8}

/-- A value without its white space that is the text of some bytes is decoded to these. -/
theorem scalarDecodeBase64_of_encodes (h : Base64.Encodes alphabet bytes (compact value))
    (hbytes : bytes ≠ []) :
  scalarDecodeBase64 value = .ok bytes
  := by
  have htext : compact value ≠ [] := fun hnil => hbytes (h.eq_nil_iff.mp hnil)
  have hfours : (compact value).length % 4 = 0 := mod_eq_zero_of_dvd h.four_dvd_length
  rw [scalarDecodeBase64, if_neg (by simp [htext, hfours])]
  exact decodeQuads_of_encodes h

theorem scalarDecodeBase64_eq_ok :
  scalarDecodeBase64 value = .ok bytes ↔
    compact value ≠ [] ∧ 4 ∣ (compact value).length ∧ decodeQuads (compact value) = .ok bytes
  := by
  rw [scalarDecodeBase64]
  split
  case isTrue h =>
    simp only [reduceCtorEq, false_iff]
    rintro ⟨hnonempty, hfours, -⟩
    simp [hnonempty, mod_eq_zero_of_dvd hfours] at h
  case isFalse h =>
    simp only [Bool.or_eq_true, List.isEmpty_iff, decide_eq_true_eq, not_or, not_not] at h
    simp [h.1, dvd_of_mod_eq_zero h.2]

/-- White space does not keep an encoded text from being decoded; what is accepted is well formed
but for its white space; and where no set bits are discarded, encoding gives the text back. -/
theorem scalarBase64_roundTrips :
  (∀ bytes value, bytes ≠ [] → compact value = scalarEncodeBase64 bytes →
      scalarDecodeBase64 value = .ok bytes) ∧
    (∀ value, (∃ bytes, scalarDecodeBase64 value = .ok bytes) ↔ WellFormed (compact value)) ∧
    ∀ value bytes, scalarDecodeBase64 value = .ok bytes → discardedBits (compact value) = 0 →
      scalarEncodeBase64 bytes = compact value
  := by
  refine ⟨?_, ?_, ?_⟩
  · intro bytes value hbytes hvalue
    apply scalarDecodeBase64_of_encodes _ hbytes
    rw [hvalue]
    exact encodes_scalarEncodeBase64 bytes
  · intro value
    constructor
    · rintro ⟨bytes, h⟩
      obtain ⟨hnonempty, hfours, hdecode⟩ := scalarDecodeBase64_eq_ok.mp h
      exact ⟨hnonempty, hfours, (exists_decodeQuads_iff hfours).mp ⟨bytes, hdecode⟩⟩
    · rintro ⟨hnonempty, hfours, hpadded⟩
      obtain ⟨bytes, hdecode⟩ := (exists_decodeQuads_iff hfours).mpr hpadded
      exact ⟨bytes, scalarDecodeBase64_eq_ok.mpr ⟨hnonempty, hfours, hdecode⟩⟩
  · intro value bytes h hdiscarded
    obtain ⟨-, hfours, hdecode⟩ := scalarDecodeBase64_eq_ok.mp h
    have hencodes := encodes_of_decodeQuads hdecode hfours hdiscarded
    exact (encodes_scalarEncodeBase64 bytes).text_unique hencodes

end GRParse.Codec
