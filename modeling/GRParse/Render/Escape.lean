import GRParse.Render.JsonWriter

/-!
# Escaped strings

The escaper of the writer decodes UTF-8 as the chunker does, so what it writes for a string is
the escape of every code unit of the characters that `decode_utf8` finds.  Each escape is read
back to its unit.
-/

namespace GRParse.Render

open Chunking Json List Nat

/-! ### The escaper's decoder -/

variable {byte : UInt8}

theorem not_lead_three (h : byte &&& 0xe0 = 0xc0) :
  byte &&& 0xf0 ≠ 0xe0
  := by
  intro h'
  have hmask := congrArg (· &&& 0xe0) h'
  rw [UInt8.and_assoc] at hmask
  exact absurd (h.symm.trans hmask) (by decide)

theorem not_lead_four (h : byte &&& 0xe0 = 0xc0 ∨ byte &&& 0xf0 = 0xe0) :
  byte &&& 0xf8 ≠ 0xf0
  := by
  intro h'
  rcases h with h | h
  · have hmask := congrArg (· &&& 0xe0) h'
    rw [UInt8.and_assoc] at hmask
    exact absurd (h.symm.trans hmask) (by decide)
  · have hmask := congrArg (· &&& 0xf0) h'
    rw [UInt8.and_assoc] at hmask
    exact absurd (h.symm.trans hmask) (by decide)

theorem shift_or_lt {bits low high n m : ℕ} (hbits : bits < 2 ^ high) (hlow : low < 2 ^ n) (hm : high + n = m) :
  bits <<< n ||| low < 2 ^ m
  := by
  subst hm
  apply Nat.or_lt_two_pow
  · rw [Nat.shiftLeft_eq, Nat.pow_add]
    exact Nat.mul_lt_mul_of_pos_right hbits (Nat.two_pow_pos n)
  · exact hlow.trans_le (Nat.pow_le_pow_right (by decide) (by omega))

/-- The bits of a sequence, put together at once. -/
theorem addBits_two (lead : ℕ) (first : UInt8) :
  [first].foldl addBits lead = lead <<< 6 ||| (first &&& 0x3f).toNat
  := rfl

theorem addBits_three (lead : ℕ) (first second : UInt8) :
  [first, second].foldl addBits lead
    = lead <<< 12 ||| (first &&& 0x3f).toNat <<< 6 ||| (second &&& 0x3f).toNat
  := by
  simp only [foldl_cons, foldl_nil, addBits, shiftLeft_or_distrib,
    ← shiftLeft_add]

theorem addBits_four (lead : ℕ) (first second third : UInt8) :
  [first, second, third].foldl addBits lead
    = lead <<< 18 ||| (first &&& 0x3f).toNat <<< 12 ||| (second &&& 0x3f).toNat <<< 6 |||
      (third &&& 0x3f).toNat
  := by
  simp only [foldl_cons, foldl_nil, addBits, shiftLeft_or_distrib,
    ← shiftLeft_add]

/-- What a byte beyond ASCII is decoded to, by either decoder. -/
def decoded (byte : UInt8) (rest : List UInt8) : ℕ × ℕ :=
  match sequenceValue byte rest with
  | some value => (value, sequenceLength byte)
  | none => (0xfffd, 1)

theorem decoded_short {rest : List UInt8} (h : rest.length + 1 < sequenceLength byte) :
  decoded byte rest = (0xfffd, 1)
  := by
  simp [decoded, sequenceValue, h]

theorem decoded_sequence {byte : UInt8} {tail : List UInt8} (rest : List UInt8) {length : ℕ}
    (hlength : sequenceLength byte = length) (htail : tail.length + 1 = length) :
  decoded byte (tail ++ rest) =
    if tail.all isContinuation ∧ malformed length (tail.foldl addBits (leadBits byte length)) = false
    then (tail.foldl addBits (leadBits byte length), length) else (0xfffd, 1)
  := by
  subst htail
  rw [decoded, sequenceValue]
  simp only [hlength, Nat.add_sub_cancel, take_left]
  rw [if_neg (by simp)]
  by_cases hall : tail.all isContinuation
  · cases hmalformed :
        malformed (tail.length + 1) (tail.foldl addBits (leadBits byte (tail.length + 1)))
    · simp [hall]
    · simp [hall]
  · simp [hall]

@[simp]
theorem continuation_nil (place : ℕ) :
  continuation [] place = false
  := rfl

@[simp]
theorem continuation_zero (byte : UInt8) (rest : List UInt8) :
  continuation (byte :: rest) 0 = isContinuation byte
  := rfl

@[simp]
theorem continuation_succ (byte : UInt8) (rest : List UInt8) (place : ℕ) :
  continuation (byte :: rest) (place + 1) = continuation rest place
  := rfl

theorem escapedPoint_two (hlength : sequenceLength byte = 2) (h : byte &&& 0xe0 = 0xc0)
    (rest : List UInt8) :
  escapedPoint byte rest = decoded byte rest
  := by
  have h3 := not_lead_three h
  have h4 := not_lead_four (.inl h)
  match rest with
  | [] =>
    rw [decoded_short (by simp [hlength])]
    simp [escapedPoint, h3, h4]
  | first :: rest =>
    have hbound : (byte &&& 0x1f).toNat <<< 6 ||| (first &&& 0x3f).toNat < 2 ^ 11 := by
      apply shift_or_lt (and_lt_two_pow _ (by decide)) (and_lt_two_pow _ (by decide)) rfl
    have hdecoded := @decoded_sequence byte [first] rest 2 hlength rfl
    rw [addBits_two] at hdecoded
    refine Eq.trans ?_ hdecoded.symm
    simp only [escapedPoint, leadBits, tailBits, getD_cons_zero, continuation_zero, h, h3, h4]
    generalize (byte &&& 0x1f).toNat <<< 6 ||| (first &&& 0x3f).toNat = code at hbound
    have hwell : malformed 2 code = false ↔ 0x80 ≤ code := by
      simp [malformed]
      omega
    cases hfirst : isContinuation first
    · simp [hfirst]
    · simp [hfirst, hwell]

theorem escapedPoint_three (hlength : sequenceLength byte = 3) (h : byte &&& 0xf0 = 0xe0)
    (rest : List UInt8) :
  escapedPoint byte rest = decoded byte rest
  := by
  have h2 : byte &&& 0xe0 ≠ 0xc0 := fun h2 => not_lead_three h2 h
  have h4 := not_lead_four (.inr h)
  match rest with
  | [] =>
    rw [decoded_short (by simp [hlength])]
    simp [escapedPoint]
  | [first] =>
    rw [decoded_short (by simp [hlength])]
    simp [escapedPoint, h2]
  | first :: second :: rest =>
    have hbound : (byte &&& 0x0f).toNat <<< 12 ||| (first &&& 0x3f).toNat <<< 6 |||
        (second &&& 0x3f).toNat < 2 ^ 16 := by
      rw [Nat.or_assoc]
      apply shift_or_lt (Nat.and_lt_two_pow _ (by decide)) _ rfl
      apply shift_or_lt (Nat.and_lt_two_pow _ (by decide)) (Nat.and_lt_two_pow _ (by decide)) rfl
    have hdecoded := @decoded_sequence byte [first, second] rest 3 hlength rfl
    rw [addBits_three] at hdecoded
    refine Eq.trans ?_ hdecoded.symm
    simp only [escapedPoint, leadBits, tailBits, getD_cons_zero, getD_cons_succ,
      continuation_zero, continuation_succ, h, h2, h4]
    generalize (byte &&& 0x0f).toNat <<< 12 ||| (first &&& 0x3f).toNat <<< 6 |||
      (second &&& 0x3f).toNat = code at hbound
    have hwell : malformed 3 code = false ↔ 0x800 ≤ code ∧ (code < 0xd800 ∨ 0xdfff < code) := by
      simp [malformed]
      omega
    cases hfirst : isContinuation first
    · simp [hfirst]
    · cases hsecond : isContinuation second
      · simp [hfirst, hsecond]
      · simp [hfirst, hsecond, hwell]

theorem escapedPoint_four (hlength : sequenceLength byte = 4) (h : byte &&& 0xf8 = 0xf0)
    (rest : List UInt8) :
  escapedPoint byte rest = decoded byte rest
  := by
  have h2 : byte &&& 0xe0 ≠ 0xc0 := fun h2 => not_lead_four (.inl h2) h
  have h3 : byte &&& 0xf0 ≠ 0xe0 := fun h3 => not_lead_four (.inr h3) h
  match rest with
  | [] =>
    rw [decoded_short (by simp [hlength])]
    simp [escapedPoint]
  | [first] =>
    rw [decoded_short (by simp [hlength])]
    simp [escapedPoint, h2]
  | [first, second] =>
    rw [decoded_short (by simp [hlength])]
    simp [escapedPoint, h2, h3]
  | first :: second :: third :: rest =>
    have hdecoded := @decoded_sequence byte [first, second, third] rest 4 hlength rfl
    rw [addBits_four] at hdecoded
    refine Eq.trans ?_ hdecoded.symm
    simp only [escapedPoint, leadBits, tailBits, getD_cons_zero, getD_cons_succ,
      continuation_zero, continuation_succ, h, h2, h3]
    generalize (byte &&& 0x07).toNat <<< 18 ||| (first &&& 0x3f).toNat <<< 12 |||
      (second &&& 0x3f).toNat <<< 6 ||| (third &&& 0x3f).toNat = code
    have hwell : malformed 4 code = false ↔ 0x10000 ≤ code ∧ code ≤ 0x10ffff := by
      simp [malformed]
      omega
    cases hfirst : isContinuation first
    · simp [hfirst]
    · cases hsecond : isContinuation second
      · simp [hfirst, hsecond]
      · cases hthird : isContinuation third
        · simp [hfirst, hsecond, hthird]
        · simp [hfirst, hsecond, hthird, hwell]

/-- The escaper decodes as the chunker does. -/
theorem escapedPoint_eq (hbyte : ¬ byte < 0x80) (rest : List UInt8) :
  escapedPoint byte rest = decoded byte rest
  := by
  by_cases h2 : byte &&& 0xe0 = 0xc0
  · exact escapedPoint_two (by simp [sequenceLength, hbyte, h2]) h2 rest
  · by_cases h3 : byte &&& 0xf0 = 0xe0
    · exact escapedPoint_three (by simp [sequenceLength, hbyte, h2, h3]) h3 rest
    · by_cases h4 : byte &&& 0xf8 = 0xf0
      · exact escapedPoint_four (by simp [sequenceLength, hbyte, h2, h3, h4]) h4 rest
      · have hlength : sequenceLength byte = 0 := by simp [sequenceLength, hbyte, h2, h3, h4]
        simp [escapedPoint, h2, h3, h4, decoded, sequenceValue, hlength]

/-! ### The escape of a string -/

/-- What is written for a code unit. -/
def spellUnit (unit : ℕ) : List UInt8 :=
  if unit < 0x80 then
    if plain (.ofNat unit) then [.ofNat unit] else escapeAscii (.ofNat unit)
  else appendU16 unit

/-- What is written for a character. -/
def spellPoint (point : ℕ) : List UInt8 :=
  (codeUnits point).flatMap spellUnit

theorem escapeFrom_drop (skip : ℕ) (text : List UInt8) :
  escapeFrom skip text = escapeFrom 0 (text.drop skip)
  := by
  induction text generalizing skip with
  | nil => simp [escapeFrom]
  | cons byte rest ih =>
    cases skip with
    | zero => rfl
    | succ skip => rw [escapeFrom, drop_succ_cons, ih]

theorem decodeFrom_drop (skip : ℕ) (text : List UInt8) :
  decodeFrom skip text = decodeUtf8 (text.drop skip)
  := by
  induction text generalizing skip with
  | nil => simp [decodeUtf8, decodeFrom]
  | cons byte rest ih =>
    cases skip with
    | zero => rfl
    | succ skip => rw [decodeFrom, drop_succ_cons, ih]

theorem decodeUtf8_ascii (h : byte < 0x80) (rest : List UInt8) :
  decodeUtf8 (byte :: rest) = byte.toNat :: decodeUtf8 rest
  := by
  have hbyte : byte.toNat < 128 := h
  have hvalue : sequenceValue byte rest = some byte.toNat := by
    simp [sequenceValue, sequenceLength, h, leadBits, malformed]
    omega
  rw [decodeUtf8, decodeFrom, hvalue]
  simp [sequenceLength, h, decodeUtf8]

theorem decodeUtf8_other (byte : UInt8) (rest : List UInt8) :
  decodeUtf8 (byte :: rest)
    = (decoded byte rest).1 :: decodeUtf8 (rest.drop ((decoded byte rest).2 - 1))
  := by
  rw [decodeUtf8, decodeFrom, decoded]
  cases sequenceValue byte rest with
  | none => simp [decodeUtf8, kReplacement]
  | some value => simp [decodeFrom_drop]

theorem lt_of_plain (h : plain byte) :
  byte < 0x80
  := by
  simp only [plain, Bool.and_eq_true, decide_eq_true_eq] at h
  have : byte.toNat ≤ 126 := h.1.1.2
  show byte.toNat < 128
  omega

theorem spellPoint_ascii (h : byte < 0x80) :
  spellPoint byte.toNat = if plain byte then [byte] else escapeAscii byte
  := by
  have hbyte : byte.toNat < 128 := h
  simp [spellPoint, codeUnits, spellUnit, hbyte, show byte.toNat < 65536 by omega]

theorem spellPoint_plain (h : plain byte) :
  spellPoint byte.toNat = [byte]
  := by
  rw [spellPoint_ascii (lt_of_plain h), if_pos h]

theorem escapePoint_eq {code : ℕ} (h : 0x80 ≤ code) (hmax : code ≤ 0x10ffff) :
  escapePoint code = spellPoint code
  := by
  have hmask : (code - 0x10000) &&& 0x3ff = (code - 0x10000) % 0x400 := and_two_pow_sub_one_eq_mod _ 10
  rw [escapePoint, spellPoint, codeUnits]
  by_cases hlarge : 0x10000 ≤ code
  · rw [if_pos hlarge, if_neg (by omega), shiftRight_eq_div_pow, hmask]
    simp [spellUnit, show ¬ 0xd800 + (code - 65536) / 1024 < 128 by omega]
    omega
  · rw [if_neg hlarge, if_pos (by omega)]
    simp [spellUnit, show ¬ code < 128 by omega]

/-- A run of bytes that pass through is decoded byte by byte. -/
theorem decodeUtf8_run {run : List UInt8} (h : ∀ byte ∈ run, plain byte) (rest : List UInt8) :
  (decodeUtf8 (run ++ rest)).flatMap spellPoint = run ++ (decodeUtf8 rest).flatMap spellPoint
  := by
  induction run with
  | nil => rfl
  | cons byte run ih =>
    obtain ⟨hbyte, hrun⟩ := forall_mem_cons.mp h
    rw [cons_append, decodeUtf8_ascii (lt_of_plain hbyte), flatMap_cons,
      spellPoint_plain hbyte, ih hrun]
    rfl

theorem decoded_fst {byte : UInt8} {rest : List UInt8} (hbyte : ¬ byte < 0x80) :
  0x80 ≤ (decoded byte rest).1 ∧ (decoded byte rest).1 ≤ 0x10ffff
  := by
  rw [decoded]
  cases hvalue : sequenceValue byte rest with
  | none => exact ⟨by simp, by simp⟩
  | some value =>
    refine ⟨?_, (isScalar_of_sequenceValue hvalue).1⟩
    have hlength : sequenceLength byte = 0 ∨ sequenceLength byte = 2 ∨ sequenceLength byte = 3 ∨
        sequenceLength byte = 4 := by
      unfold sequenceLength
      rw [if_neg hbyte]
      split_ifs <;> simp
    unfold sequenceValue at hvalue
    dsimp only at hvalue
    split at hvalue
    case isTrue => cases hvalue
    case isFalse hshort =>
      split at hvalue
      case isTrue => cases hvalue
      case isFalse hwell =>
        obtain rfl := Option.some.inj hvalue
        rcases hlength with hlength | hlength | hlength | hlength
        · exact absurd (.inl hlength) hshort
        all_goals
          simp only [Bool.or_eq_true, not_or, Bool.not_eq_true] at hwell
          have hvalue := hwell.2
          rw [hlength] at hvalue
          dsimp only
          rw [hlength]
          generalize foldl addBits _ _ = value at hvalue ⊢
          simp [malformed] at hvalue
          omega

theorem drop_run (rest : List UInt8) :
  rest.drop (rest.takeWhile plain).length = rest.dropWhile plain
  := by
  have h : (rest.takeWhile plain ++ rest.dropWhile plain).drop (rest.takeWhile plain).length
      = rest.dropWhile plain := drop_left
  rwa [takeWhile_append_dropWhile] at h

/-- The escape of a string is that of the characters it is decoded to. -/
theorem escapeJsonAscii_eq (text : List UInt8) :
  escapeJsonAscii text = (decodeUtf8 text).flatMap spellPoint
  := by
  rw [escapeJsonAscii]
  induction h : text.length using Nat.strong_induction_on generalizing text with
  | _ n ih =>
    subst h
    cases text with
    | nil => simp [escapeFrom, decodeUtf8, decodeFrom]
    | cons byte rest =>
      have hrest : ∀ m, escapeFrom m rest = (decodeUtf8 (rest.drop m)).flatMap spellPoint := by
        intro m
        rw [escapeFrom_drop]
        apply ih _ _ _ rfl
        simp only [length_drop, length_cons]
        omega
      rw [escapeFrom]
      split
      case isTrue hplain =>
        have hrun : ∀ b ∈ byte :: rest.takeWhile plain, plain b :=
          forall_mem_cons.mpr ⟨hplain, fun b => mem_takeWhile_imp⟩
        rw [hrest, drop_run, ← decodeUtf8_run hrun, cons_append,
          takeWhile_append_dropWhile]
      case isFalse hplain =>
        split
        case isTrue hascii =>
          rw [hrest, decodeUtf8_ascii hascii, flatMap_cons, spellPoint_ascii hascii, if_neg hplain]
          rfl
        case isFalse hascii =>
          obtain ⟨hmin, hmax⟩ := @decoded_fst byte rest hascii
          rw [escapedPoint_eq hascii, hrest, decodeUtf8_other, flatMap_cons, escapePoint_eq hmin hmax]

/-! ### Reading an escape back -/

theorem hexValue_hexDigit {digit : ℕ} (h : digit < 16) :
  hexValue (hexDigit digit) = some digit
  := by
  have h' : ∀ d : Fin 16, hexValue (hexDigit d.val) = some d.val := by decide
  exact h' ⟨digit, h⟩

theorem hexDigit_lt (digit : ℕ) :
  hexDigit digit < 0x80
  := by
  rcases lt_or_ge digit 16 with h | h
  · have h' : ∀ d : Fin 16, hexDigit d.val < 0x80 := by decide
    exact h' ⟨digit, h⟩
  · rw [hexDigit, getD_eq_default _ _ h]
    decide

theorem readUnit_appendU16 {unit : ℕ} (h : unit < 0x10000) (rest : List UInt8) :
  readUnit (appendU16 unit ++ rest) = some (unit, rest)
  := by
  have hmask : ∀ n, n &&& 0xf = n % 16 := fun n => and_two_pow_sub_one_eq_mod n 4
  have hvalue : ∀ n, hexValue (hexDigit (n &&& 0xf)) = some (n % 16) := by
    intro n
    rw [hmask]
    exact hexValue_hexDigit (mod_lt _ (by decide))
  simp [appendU16, readUnit, readHex, hvalue, shiftRight_eq_div_pow]
  omega

theorem readUnit_escapeAscii (hascii : byte < 0x80) (rest : List UInt8) :
  readUnit (escapeAscii byte ++ rest) = some (byte.toNat, rest)
  := by
  have hbyte : byte.toNat < 128 := hascii
  unfold escapeAscii
  split_ifs
  all_goals first
    | exact readUnit_appendU16 (by omega) rest
    | subst byte; simp [readUnit, shortEscape]

theorem readUnit_spellUnit {unit : ℕ} (h : unit < 0x10000) (rest : List UInt8) :
  readUnit (spellUnit unit ++ rest) = some (unit, rest)
  := by
  rw [spellUnit]
  split
  case isFalse => exact readUnit_appendU16 h rest
  case isTrue hunit =>
    have hnat : (UInt8.ofNat unit).toNat = unit := by simp; omega
    split
    case isTrue hplain =>
      simp only [plain, Bool.and_eq_true, decide_eq_true_eq, bne_iff_ne] at hplain
      simp [readUnit, hplain, hnat]
    case isFalse =>
      have hascii : UInt8.ofNat unit < 0x80 := by
        show (UInt8.ofNat unit).toNat < 128
        omega
      rw [readUnit_escapeAscii hascii, hnat]

theorem spellUnit_ascii {unit : ℕ} (h : byte ∈ spellUnit unit) :
  byte < 0x80
  := by
  have hhex : ∀ n, byte ∈ appendU16 n → byte < 0x80 := by
    intro n hn
    simp only [appendU16, mem_cons, not_mem_nil, or_false] at hn
    rcases hn with rfl | rfl | rfl | rfl | rfl | rfl
    · decide
    · decide
    all_goals apply hexDigit_lt
  rw [spellUnit] at h
  split at h
  case isFalse => exact hhex unit h
  case isTrue hunit =>
    split at h
    case isTrue hplain =>
      obtain rfl := mem_singleton.mp h
      exact lt_of_plain hplain
    case isFalse =>
      unfold escapeAscii at h
      split_ifs at h
      all_goals first
        | exact hhex _ h
        | (simp only [mem_cons, not_mem_nil, or_false] at h; rcases h with rfl | rfl <;> decide)

theorem codeUnits_lt {point unit : ℕ} (hpoint : point ≤ 0x10ffff) (h : unit ∈ codeUnits point) :
  unit < 0x10000
  := by
  rw [codeUnits] at h
  split at h
  · obtain rfl := mem_singleton.mp h
    omega
  · simp at h
    omega

theorem escapeJsonAscii_units (text : List UInt8) :
  escapeJsonAscii text = ((decodeUtf8 text).flatMap codeUnits).flatMap spellUnit
  := by
  rw [escapeJsonAscii_eq, flatMap_assoc]
  rfl

theorem units_lt {text : List UInt8} {unit : ℕ} (h : unit ∈ (decodeUtf8 text).flatMap codeUnits) :
  unit < 0x10000
  := by
  obtain ⟨point, hpoint, hunit⟩ := mem_flatMap.mp h
  exact codeUnits_lt (isScalar_of_mem_decodeUtf8 hpoint).1 hunit

/-- The escape of a string is the body of one. -/
theorem isBody_escape (text : List UInt8) :
  isBody (escapeJsonAscii text)
  := by
  rw [escapeJsonAscii_units]
  apply isBody_flatMap
  intro unit hunit
  apply readUnit_spellUnit (units_lt hunit)

/-- The characters of the escape are those that the string is decoded to. -/
theorem decodeBody_escape (text : List UInt8) :
  decodeBody (escapeJsonAscii text) = some (decodeUtf8 text)
  := by
  rw [escapeJsonAscii_units, decodeBody_flatMap, recombine_codeUnits]
  · intro point hpoint
    exact isScalar_of_mem_decodeUtf8 hpoint
  · intro unit hunit
    apply readUnit_spellUnit (units_lt hunit)
  · intro unit _ byte
    apply spellUnit_ascii

theorem escape_ascii {text : List UInt8} (h : byte ∈ escapeJsonAscii text) :
  byte < 0x80
  := by
  rw [escapeJsonAscii_units] at h
  obtain ⟨unit, -, hbyte⟩ := mem_flatMap.mp h
  exact spellUnit_ascii hbyte

end GRParse.Render
