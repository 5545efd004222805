import GRParse.Render.IntegralDecimal

/-!
# The layout of numbers

The canonical text of a number is laid out again from the digits that `std::to_chars` spells in
scientific form: with a point as long as the point is not far from the digits, and with an exponent
otherwise.  As a JSON number the text is worth exactly what the digits and the place of the point
say, so that different digits never print alike.
-/

namespace GRParse.Render

open Json JsonWriter List Bool

/-! ### The function -/

/-- `ShortestDigits`: the value is 0.D1D2... * 10^decpt. -/
structure ShortestDigits where
  negative : Bool
  digits : List UInt8
  decpt : ℤ
  deriving DecidableEq

/-- The exponent behind the letter `e`. -/
def readExponent (text : List UInt8) : ℤ :=
  let digits := if text.head? = some 0x2b ∨ text.head? = some 0x2d then text.tail else text
  let exponent := digits.foldl (fun exponent digit => exponent * 10 + ((digit.toNat : ℤ) - 0x30)) 0
  if text.head? = some 0x2d then -exponent else exponent

/-- `shortest_digits`, of the text that `std::to_chars` yields. -/
def shortestDigits (text : List UInt8) : ShortestDigits :=
  let unsigned := if text.head? = some 0x2d then text.tail else text
  { negative := text.head? = some 0x2d
    digits := (unsigned.takeWhile (· ≠ 0x65)).filter (· ≠ 0x2e)
    decpt :=
      match unsigned.dropWhile (· ≠ 0x65) with
      | [] => 1
      | _ :: exponent => readExponent exponent + 1 }

/-- `append_two_digit_exponent`. -/
def twoDigitExponent (exponent : ℤ) : List UInt8 :=
  0x65 :: (if exponent < 0 then 0x2d else 0x2b) ::
    (List.replicate (2 - (decimal exponent.natAbs).length) 0x30 ++ decimal exponent.natAbs)

/-- The digits with the first one before the point, and the rest, if there is any, behind it. -/
def pointed (digits : List UInt8) : List UInt8 :=
  digits.take 1 ++ if 1 < digits.length then 0x2e :: digits.drop 1 else []

/-- The digits with their point. -/
def layoutDigits (digits : List UInt8) (decpt : ℤ) : List UInt8 :=
  if 16 < decpt ∨ decpt < -3 then pointed digits ++ twoDigitExponent (decpt - 1)
  else if decpt ≤ 0 then [0x30, 0x2e] ++ List.replicate (-decpt).toNat 0x30 ++ digits
  else if digits.length ≤ decpt then
    digits ++ List.replicate (decpt - digits.length).toNat 0x30 ++ [0x2e, 0x30]
  else digits.take decpt.toNat ++ 0x2e :: digits.drop decpt.toNat

/-- The digits with their point and the sign. -/
def ShortestDigits.layout (parts : ShortestDigits) : List UInt8 :=
  (if parts.negative then [0x2d] else []) ++ layoutDigits parts.digits parts.decpt

/-- A `double`. -/
inductive Double
  | nan
  | infinity (negative : Bool)
  | zero (negative : Bool)
  | finite (value : ℚ) (nonzero : value ≠ 0)

/-- `canonical_double`, over what `std::to_chars` yields in scientific form. -/
def canonicalDouble (toChars : ℚ → List UInt8) : Double → List UInt8
  | .nan => [0x4e, 0x61, 0x4e]
  | .infinity negative =>
    (if negative then [0x2d] else []) ++ [0x49, 0x6e, 0x66, 0x69, 0x6e, 0x69, 0x74, 0x79]
  | .zero negative => (if negative then [0x2d] else []) ++ [0x30, 0x2e, 0x30]
  | .finite value _ => (shortestDigits (toChars value)).layout

/-! ### What is laid out -/

/-- Digits that do not begin with zero. -/
def Leading (digits : List UInt8) : Prop :=
  ∃ first rest, digits = first :: rest ∧ first ≠ 0x30

/-- What `std::to_chars` can yield: a sign, digits the first of which is not zero, and an exponent
for a point behind the first digit. -/
structure Scientific where
  negative : Bool
  digits : List UInt8
  exponent : ℤ
  digit : digits.all isDigit
  leading : Leading digits

namespace Scientific

/-- The text `d[.ddd]e(+|-)XX`. -/
def text (number : Scientific) : List UInt8 :=
  (if number.negative then [0x2d] else []) ++ pointed number.digits ++
    twoDigitExponent number.exponent

/-- The place of the point in front of the digits. -/
def decpt (number : Scientific) : ℤ :=
  number.exponent + 1

/-- The digits and the place of the point. -/
def parts (number : Scientific) : ShortestDigits :=
  ⟨number.negative, number.digits, number.decpt⟩

/-- The value 0.D1D2... * 10^decpt, with its sign. -/
def value (number : Scientific) : ℚ :=
  (if number.negative then -1 else 1) * (digitsValue number.digits / 10 ^ number.digits.length) *
    10 ^ number.decpt

/-- The last digit is not zero. -/
def Shortest (number : Scientific) : Prop :=
  number.digits.getLast? ≠ some 0x30

end Scientific

/-! ### Reading the scientific form -/

theorem digitsValue_concat (digits : List UInt8) (digit : UInt8) :
  digitsValue (digits ++ [digit]) = 10 * digitsValue digits + (digit.toNat - 0x30)
  := by
  rw [digitsValue, foldl_append]
  rfl

theorem digitsValue_append (digits digits' : List UInt8) :
  digitsValue (digits ++ digits') = digitsValue digits * 10 ^ digits'.length + digitsValue digits'
  := by
  induction digits' using reverseRecOn with
  | nil => simp [digitsValue]
  | append_singleton digits' digit ih =>
    rw [← append_assoc, digitsValue_concat, ih, digitsValue_concat, length_append,
      length_singleton, pow_succ]
    ring

theorem digitsValue_replicate (count : ℕ) :
  digitsValue (List.replicate count 0x30) = 0
  := by
  induction count with
  | zero => rfl
  | succ count ih =>
    rw [replicate_succ', digitsValue_append, ih]
    rfl

variable {digits : List UInt8}

/-- Digits, as the loops of the source read them. -/
theorem foldl_digits (h : digits.all isDigit) :
  digits.foldl (fun exponent digit => exponent * 10 + ((digit.toNat : ℤ) - 0x30)) 0 =
    digitsValue digits
  := by
  induction digits using reverseRecOn with
  | nil => rfl
  | append_singleton digits digit ih =>
    rw [all_append, and_eq_true] at h
    have hdigit : 0x30 ≤ digit.toNat := by
      have hdigit := all_eq_true.mp h.2 digit mem_cons_self
      rw [isDigit, and_eq_true, decide_eq_true_eq, decide_eq_true_eq] at hdigit
      exact hdigit.1
    rw [foldl_append, ih h.1, digitsValue_concat, foldl_cons, foldl_nil]
    omega

theorem readExponent_minus (h : digits.all isDigit) :
  readExponent (0x2d :: digits) = -digitsValue digits
  := by
  rw [← foldl_digits h]
  rfl

theorem readExponent_plus (h : digits.all isDigit) :
  readExponent (0x2b :: digits) = digitsValue digits
  := by
  rw [← foldl_digits h]
  rfl

/-- The digits of an exponent, at least two. -/
theorem exponentDigits_spec (value : ℕ) :
  (List.replicate (2 - (decimal value).length) 0x30 ++ decimal value).all isDigit ∧
    digitsValue (List.replicate (2 - (decimal value).length) 0x30 ++ decimal value) = value ∧
      List.replicate (2 - (decimal value).length) 0x30 ++ decimal value ≠ []
  := by
  obtain ⟨hall, hvalue, leading, rest, hleading, -⟩ := decimal_spec value
  refine ⟨?_, ?_, ?_⟩
  · rw [all_append, hall, Bool.and_true, all_replicate]
    simp [isDigit]
  · rw [digitsValue_append, digitsValue_replicate, hvalue]
    omega
  · rw [hleading]
    exact append_ne_nil_of_right_ne_nil _ (cons_ne_nil _ _)

theorem readExponent_twoDigitExponent (exponent : ℤ) :
  readExponent (twoDigitExponent exponent).tail = exponent
  := by
  obtain ⟨hall, hvalue, -⟩ := exponentDigits_spec exponent.natAbs
  rw [twoDigitExponent, tail_cons]
  by_cases hnegative : exponent < 0
  · rw [if_pos hnegative, readExponent_minus hall, hvalue]
    omega
  · rw [if_neg hnegative, readExponent_plus hall, hvalue]
    omega

theorem ne_of_isDigit {byte other : UInt8} (h : isDigit byte) (hother : isDigit other = false) :
  byte ≠ other
  := by
  rintro rfl
  rw [h] at hother
  cases hother

theorem mem_pointed {byte : UInt8} (h : byte ∈ pointed digits) :
  byte ∈ digits ∨ byte = 0x2e
  := by
  rcases mem_append.mp h with h | h
  · exact .inl (mem_of_mem_take h)
  · split at h
    case isTrue =>
      rcases mem_cons.mp h with rfl | h
      · exact .inr rfl
      · exact .inl (mem_of_mem_drop h)
    case isFalse => cases h

theorem filter_pointed (h : digits.all isDigit) :
  (pointed digits).filter (· ≠ 0x2e) = digits
  := by
  have hkeep : ∀ part : List UInt8, (∀ byte ∈ part, byte ∈ digits) →
      part.filter (· ≠ 0x2e) = part := by
    intro part hpart
    apply filter_eq_self.mpr
    intro byte hbyte
    exact decide_eq_true (ne_of_isDigit (all_eq_true.mp h byte (hpart byte hbyte)) rfl)
  rw [pointed, filter_append, hkeep _ fun byte hbyte => mem_of_mem_take hbyte]
  split
  case isTrue hlong =>
    rw [filter_cons_of_neg (by simp), hkeep _ fun byte hbyte => mem_of_mem_drop hbyte,
      take_append_drop]
  case isFalse hshort =>
    rw [filter_nil, append_nil, take_of_length_le (by omega)]

/-- The parts of a number are found in its scientific form. -/
theorem shortestDigits_text (number : Scientific) :
  shortestDigits number.text = number.parts
  := by
  obtain ⟨first, rest, hdigits, -⟩ := number.leading
  have hall := all_eq_true.mp number.digit
  have hunsigned : (if number.text.head? = some 0x2d then number.text.tail else number.text) =
      pointed number.digits ++ twoDigitExponent number.exponent ∧
        decide (number.text.head? = some 0x2d) = number.negative := by
    rw [Scientific.text]
    cases hnegative : number.negative with
    | true => simp
    | false =>
      have hfirst : first ≠ 0x2d :=
        ne_of_isDigit (hall first (hdigits ▸ mem_cons_self)) rfl
      simp [pointed, hdigits, hfirst]
  have hplain : ∀ byte ∈ pointed number.digits, decide (byte ≠ 0x65) = true := by
    intro byte hbyte
    rcases mem_pointed hbyte with hbyte | rfl
    · exact decide_eq_true (ne_of_isDigit (hall byte hbyte) rfl)
    · rfl
  have htake : (pointed number.digits ++ twoDigitExponent number.exponent).takeWhile (· ≠ 0x65) =
      pointed number.digits := by
    rw [takeWhile_append_of_pos hplain, twoDigitExponent,
      takeWhile_cons_of_neg (by simp), append_nil]
  have hdrop : (pointed number.digits ++ twoDigitExponent number.exponent).dropWhile (· ≠ 0x65) =
      0x65 :: (twoDigitExponent number.exponent).tail := by
    rw [dropWhile_append_of_pos hplain, twoDigitExponent,
      dropWhile_cons_of_neg (by simp)]
    rfl
  rw [shortestDigits]
  simp only [hunsigned.1, hunsigned.2, htake, hdrop, filter_pointed number.digit,
    readExponent_twoDigitExponent]
  rfl

/-! ### Reading the layout as a number -/

theorem takeWhile_isDigit_append {digits rest : List UInt8} (h : digits.all isDigit)
    (hrest : ∀ byte ∈ rest.head?, isDigit byte = false) :
  (digits ++ rest).takeWhile isDigit = digits ∧ (digits ++ rest).dropWhile isDigit = rest
  := by
  have hall := all_eq_true.mp h
  rw [takeWhile_append_of_pos hall, dropWhile_append_of_pos hall]
  cases rest with
  | nil => exact ⟨append_nil _, rfl⟩
  | cons byte rest =>
    have hbyte : ¬ isDigit byte := eq_false_iff.mp (hrest byte rfl)
    rw [takeWhile_cons_of_neg hbyte, dropWhile_cons_of_neg hbyte]
    exact ⟨append_nil _, rfl⟩

theorem integerPart_append {digits rest : List UInt8} (h : Decimal digits)
    (hrest : ∀ byte ∈ rest.head?, isDigit byte = false) :
  integerPart (digits ++ rest) = some (digits, rest)
  := by
  obtain ⟨htake, hdrop⟩ := takeWhile_isDigit_append h.digit hrest
  rw [integerPart]
  simp only [htake, hdrop]
  rw [if_neg]
  rintro (hnil | ⟨hzero, hlength⟩)
  · exact h.nonempty hnil
  · exact hlength (h.leading hzero)

theorem fractionPart_point {digits rest : List UInt8} (h : digits.all isDigit) (hne : digits ≠ [])
    (hrest : ∀ byte ∈ rest.head?, isDigit byte = false) :
  fractionPart (0x2e :: (digits ++ rest)) = some (digits, rest)
  := by
  obtain ⟨htake, hdrop⟩ := takeWhile_isDigit_append h hrest
  rw [fractionPart, if_pos rfl, htake, hdrop, if_neg hne]

theorem exponentDigits_cons {sign : UInt8} (h : sign = 0x2b ∨ sign = 0x2d) (digits : List UInt8) :
  exponentDigits (sign :: digits) = digits
  := by
  rw [exponentDigits, if_pos h]

theorem exponentPart_twoDigitExponent (exponent : ℤ) :
  exponentPart (twoDigitExponent exponent) = some exponent
  := by
  obtain ⟨hall, hvalue, hne⟩ := exponentDigits_spec exponent.natAbs
  rw [twoDigitExponent, exponentPart, if_pos (.inl rfl)]
  by_cases hnegative : exponent < 0
  · rw [if_pos hnegative, exponentDigits_cons (.inr rfl), if_neg (by simp [hall, hne]),
      head?_cons, if_pos rfl, hvalue]
    congr 1
    omega
  · rw [if_neg hnegative, exponentDigits_cons (.inl rfl), if_neg (by simp [hall, hne]),
      head?_cons, if_neg (by decide), hvalue]
    congr 1
    omega

/-- A text without a sign whose parts are worth a value. -/
def Worth (text : List UInt8) (value : ℚ) : Prop :=
  ∃ integer rest fraction rest' exponent,
    integerPart text = some (integer, rest) ∧ fractionPart rest = some (fraction, rest') ∧
      exponentPart rest' = some exponent ∧
        (digitsValue (integer ++ fraction) : ℚ) * 10 ^ (exponent - (fraction.length : ℤ)) = value

theorem numberValue_of_worth {text : List UInt8} {value : ℚ} (h : Worth text value)
    (negative : Bool) :
  numberValue ((if negative then [0x2d] else []) ++ text) =
    some ((if negative then -1 else 1) * value)
  := by
  obtain ⟨integer, rest, fraction, rest', exponent, hinteger, hfraction, hexponent, rfl⟩ := h
  have hsign : signPart ((if negative then [0x2d] else []) ++ text) =
      (if negative then -1 else 1, text) := by
    cases negative with
    | true => rfl
    | false =>
      cases text with
      | nil => rfl
      | cons byte text =>
        simp only [false_eq_true, if_false, nil_append, signPart]
        rw [if_neg]
        rintro rfl
        rw [integerPart, takeWhile_cons_of_neg (by decide), if_pos (.inl rfl)] at hinteger
        cases hinteger
  simp [numberValue, hsign, hinteger, hfraction, hexponent]

theorem Scientific.value_eq (number : Scientific) :
  number.value = (if number.negative then -1 else 1) *
    ((digitsValue number.digits : ℚ) * 10 ^ (number.decpt - (number.digits.length : ℤ)))
  := by
  rw [Scientific.value, zpow_sub₀ (by norm_num : (10 : ℚ) ≠ 0), zpow_natCast]
  ring

section

variable {digits : List UInt8} (hall : digits.all isDigit)
  (hleading : Leading digits) (decpt : ℤ)

include hall hleading

/-- The first digits, however many, are the digits of a number. -/
theorem decimal_take {count : ℕ} (hpos : 0 < count) :
  Decimal (digits.take count)
  := by
  obtain ⟨first, rest, rfl, hfirst⟩ := hleading
  obtain ⟨count, rfl⟩ := Nat.exists_eq_add_of_lt hpos
  rw [Nat.zero_add, take_succ_cons] at *
  refine ⟨?_, cons_ne_nil _ _, fun hzero => absurd (Option.some.inj hzero) hfirst⟩
  rw [all_cons, and_eq_true] at hall ⊢
  refine ⟨hall.1, all_eq_true.mpr fun byte hbyte => ?_⟩
  exact all_eq_true.mp hall.2 byte (mem_of_mem_take hbyte)

theorem worth_scientific (exponent : ℤ) :
  Worth (pointed digits ++ twoDigitExponent exponent)
    (digitsValue digits * 10 ^ (exponent + 1 - (digits.length : ℤ)))
  := by
  have hlength : 0 < digits.length := by
    obtain ⟨first, rest, rfl, -⟩ := hleading
    exact Nat.succ_pos _
  have hrest : ∀ byte ∈ (twoDigitExponent exponent).head?, isDigit byte = false := by
    rintro byte ⟨⟩
    rfl
  have hpointed : pointed digits ++ twoDigitExponent exponent =
      digits.take 1 ++ ((if 1 < digits.length then 0x2e :: digits.drop 1 else []) ++
        twoDigitExponent exponent) := append_assoc _ _ _
  refine ⟨digits.take 1, _, digits.drop 1, twoDigitExponent exponent, exponent,
    (congrArg integerPart hpointed).trans
      (integerPart_append (decimal_take hall hleading Nat.one_pos) ?_), ?_,
    exponentPart_twoDigitExponent exponent, ?_⟩
  · split
    case isTrue =>
      rintro byte ⟨⟩
      rfl
    case isFalse => exact hrest
  · split
    case isTrue hlong =>
      apply fractionPart_point _ _ hrest
      · exact all_eq_true.mpr fun byte hbyte =>
          all_eq_true.mp hall byte (mem_of_mem_drop hbyte)
      · exact drop_eq_nil_iff.not.mpr (by omega)
    case isFalse hshort =>
      rw [drop_eq_nil_iff.mpr (by omega)]
      rfl
  · rw [take_append_drop, length_drop]
    congr 2
    omega

theorem worth_below (hdecpt : decpt ≤ 0) :
  Worth ([0x30, 0x2e] ++ List.replicate (-decpt).toNat 0x30 ++ digits)
    (digitsValue digits * 10 ^ (decpt - (digits.length : ℤ)))
  := by
  have hne : digits ≠ [] := by
    obtain ⟨first, rest, rfl, -⟩ := hleading
    exact cons_ne_nil _ _
  have hzero : Decimal [0x30] := ⟨rfl, cons_ne_nil _ _, fun _ => rfl⟩
  have hsplit : [0x30, 0x2e] ++ replicate (-decpt).toNat 0x30 ++ digits =
      [0x30] ++ 0x2e :: (replicate (-decpt).toNat 0x30 ++ digits) := by simp
  refine ⟨[0x30], _, replicate (-decpt).toNat 0x30 ++ digits, [], 0,
    (congrArg integerPart hsplit).trans (integerPart_append hzero ?_), ?_, rfl, ?_⟩
  · rintro byte ⟨⟩
    rfl
  · have hpoint := @fractionPart_point (replicate (-decpt).toNat 0x30 ++ digits) []
      (by simp [hall, isDigit]) (append_ne_nil_of_right_ne_nil _ hne) nofun
    rwa [append_nil] at hpoint
  · rw [← append_assoc, digitsValue_append, ← replicate_one, ← replicate_add,
      digitsValue_replicate, Nat.zero_mul, Nat.zero_add, length_append, length_replicate]
    congr 2
    omega

theorem worth_above (hdecpt : digits.length ≤ decpt) :
  Worth (digits ++ List.replicate (decpt - digits.length).toNat 0x30 ++ [0x2e, 0x30])
    (digitsValue digits * 10 ^ (decpt - (digits.length : ℤ)))
  := by
  have hdecimal : Decimal (digits ++ replicate (decpt - digits.length).toNat 0x30) := by
    obtain ⟨first, rest, rfl, hfirst⟩ := hleading
    refine ⟨?_, cons_ne_nil _ _, fun hzero => ?_⟩
    · rw [all_append, hall, all_replicate]
      simp [isDigit]
    · exact absurd (Option.some.inj hzero) hfirst
  refine ⟨_, [0x2e, 0x30], [0x30], [], 0, integerPart_append hdecimal ?_, rfl, rfl, ?_⟩
  · rintro byte ⟨⟩
    rfl
  · obtain ⟨gap, hgap⟩ := Int.eq_ofNat_of_zero_le (sub_nonneg.mpr hdecpt)
    rw [hgap, Int.toNat_natCast, digitsValue_append, digitsValue_append, digitsValue_replicate,
      length_replicate, length_singleton, zpow_natCast]
    have hzero : digitsValue [0x30] = 0 := rfl
    rw [hzero]
    push_cast
    rw [zpow_neg_one]
    ring

theorem worth_inside (hpos : 0 < decpt) (hdecpt : decpt < digits.length) :
  Worth (digits.take decpt.toNat ++ 0x2e :: digits.drop decpt.toNat)
    (digitsValue digits * 10 ^ (decpt - (digits.length : ℤ)))
  := by
  refine ⟨_, _, digits.drop decpt.toNat, [], 0,
    integerPart_append (decimal_take hall hleading (by omega)) ?_, ?_, rfl, ?_⟩
  · rintro byte ⟨⟩
    rfl
  · have hpoint := @fractionPart_point (digits.drop decpt.toNat) []
      (all_eq_true.mpr fun byte hbyte =>
        all_eq_true.mp hall byte (mem_of_mem_drop hbyte))
      (drop_eq_nil_iff.not.mpr (by omega)) nofun
    rwa [append_nil] at hpoint
  · rw [take_append_drop, length_drop]
    congr 2
    omega

/-- The digits with their point are worth what they say. -/
theorem worth_layoutDigits :
  Worth (layoutDigits digits decpt) (digitsValue digits * 10 ^ (decpt - (digits.length : ℤ)))
  := by
  rw [layoutDigits]
  split_ifs with hfar hbelow habove
  · have h := worth_scientific hall hleading (decpt - 1)
    rwa [sub_add_cancel] at h
  · exact worth_below hall hleading decpt hbelow
  · exact worth_above hall hleading decpt habove
  · exact worth_inside hall hleading decpt (by omega) (by omega)

end

/-- The text of a number denotes exactly what its digits say. -/
theorem numberValue_layout (number : Scientific) :
  numberValue number.parts.layout = some number.value
  := by
  rw [number.value_eq]
  exact numberValue_of_worth (worth_layoutDigits number.digit number.leading number.decpt)
    number.negative

/-- The text of a number has a point or an exponent. -/
theorem mem_layoutDigits (digits : List UInt8) (decpt : ℤ) :
  0x2e ∈ layoutDigits digits decpt ∨ 0x65 ∈ layoutDigits digits decpt
  := by
  rw [layoutDigits]
  split_ifs
  · exact .inr (mem_append_right _ mem_cons_self)
  · exact .inl (by simp)
  · exact .inl (by simp)
  · exact .inl (by simp)

/-! ### Different digits -/

theorem digitByte_sub {digit : UInt8} (h : isDigit digit) :
  digitByte (digit.toNat - 0x30) = digit ∧ digit.toNat - 0x30 < 10
  := by
  rw [isDigit, and_eq_true, decide_eq_true_eq, decide_eq_true_eq] at h
  have hlow : 0x30 ≤ digit.toNat := h.1
  have hhigh : digit.toNat ≤ 0x39 := h.2
  refine ⟨?_, by omega⟩
  rw [digitByte, Nat.add_sub_cancel' hlow, UInt8.ofNat_toNat]

theorem digitsValue_pos (hall : digits.all isDigit) (hleading : Leading digits) :
  0 < digitsValue digits
  := by
  obtain ⟨first, rest, rfl, hfirst⟩ := hleading
  obtain ⟨hbyte, -⟩ := digitByte_sub (all_eq_true.mp hall first mem_cons_self)
  have hvalue : 0 < first.toNat - 0x30 := by
    apply Nat.pos_of_ne_zero
    intro hzero
    rw [hzero] at hbyte
    exact hfirst hbyte.symm
  have hsplit := digitsValue_append [first] rest
  have hsingle : digitsValue [first] = first.toNat - 0x30 := by simp [digitsValue]
  rw [hsingle, singleton_append] at hsplit
  rw [hsplit]
  positivity

/-- Digits are those of their value. -/
theorem decimal_digitsValue (hall : digits.all isDigit) (hleading : Leading digits) :
  decimal (digitsValue digits) = digits
  := by
  induction digits using reverseRecOn with
  | nil =>
    obtain ⟨first, rest, hnil, -⟩ := hleading
    cases hnil
  | append_singleton digits digit ih =>
    rw [all_append, and_eq_true] at hall
    obtain ⟨hbyte, hlt⟩ := digitByte_sub (all_eq_true.mp hall.2 digit mem_cons_self)
    rw [digitsValue_concat]
    cases digits with
    | nil =>
      have hzero : digitsValue [] = 0 := rfl
      rw [hzero, Nat.mul_zero, Nat.zero_add, decimal_small hlt, hbyte]
      rfl
    | cons first rest =>
      have hfirst : Leading (first :: rest) := by
        obtain ⟨_, _, heq, hne⟩ := hleading
        obtain ⟨rfl, -⟩ := cons.inj heq
        exact ⟨first, rest, rfl, hne⟩
      have hpos := digitsValue_pos hall.1 hfirst
      have hdiv : (10 * digitsValue (first :: rest) + (digit.toNat - 0x30)) / 10 =
          digitsValue (first :: rest) := by omega
      have hmod : (10 * digitsValue (first :: rest) + (digit.toNat - 0x30)) % 10 =
          digit.toNat - 0x30 := by omega
      rw [decimal_large (by omega), hdiv, hmod, ih hall.1 hfirst, hbyte]

theorem not_ten_dvd (hall : digits.all isDigit) (hne : digits ≠ [])
    (hlast : digits.getLast? ≠ some 0x30) :
  ¬ 10 ∣ digitsValue digits
  := by
  obtain ⟨front, last, rfl⟩ := (eq_nil_or_concat' digits).resolve_left hne
  rw [all_append, and_eq_true] at hall
  obtain ⟨hbyte, hlt⟩ := digitByte_sub (all_eq_true.mp hall.2 last mem_cons_self)
  rw [digitsValue_concat]
  intro hdvd
  have hzero : last.toNat - 0x30 = 0 := by omega
  rw [hzero] at hbyte
  apply hlast
  rw [getLast?_append, ← hbyte]
  rfl

/-- A number not divisible by ten and a power of ten are found in their product. -/
theorem eq_of_mul_zpow {value other : ℕ} {power power' : ℤ} (hvalue : ¬ 10 ∣ value)
    (hother : ¬ 10 ∣ other) (h : (value : ℚ) * 10 ^ power = other * 10 ^ power') :
  value = other ∧ power = power'
  := by
  wlog hle : power ≤ power' generalizing value other power power'
  · obtain ⟨hvalues, hpowers⟩ := this hother hvalue h.symm (by omega)
    exact ⟨hvalues.symm, hpowers.symm⟩
  · obtain ⟨gap, hgap⟩ := Int.eq_ofNat_of_zero_le (sub_nonneg.mpr hle)
    have hpower : power' = power + gap := by omega
    have hten : (10 : ℚ) ^ power ≠ 0 := zpow_ne_zero _ (by norm_num)
    have hcast : (value : ℚ) = other * 10 ^ gap := by
      rw [hpower, zpow_add₀ (by norm_num), zpow_natCast] at h
      apply mul_right_cancel₀ hten
      rw [h]
      ring
    have hnat : value = other * 10 ^ gap := by exact_mod_cast hcast
    cases gap with
    | zero =>
      rw [pow_zero, mul_one] at hnat
      exact ⟨hnat, by omega⟩
    | succ gap =>
      refine absurd ?_ hvalue
      rw [hnat, pow_succ]
      exact Dvd.intro_left (other * 10 ^ gap) (by ring)

/-- What is worth the same has the same sign, the same digits and its point in the same place. -/
theorem Scientific.parts_eq {number other : Scientific} (hnumber : number.Shortest)
    (hother : other.Shortest) (h : number.value = other.value) :
  number.parts = other.parts
  := by
  have hne : ∀ number : Scientific, number.digits ≠ [] := by
    intro number
    obtain ⟨first, rest, hdigits, -⟩ := number.leading
    rw [hdigits]
    exact cons_ne_nil _ _
  have hpos : ∀ number : Scientific, (0 : ℚ) <
      digitsValue number.digits * 10 ^ (number.decpt - (number.digits.length : ℤ)) := by
    intro number
    have hvalue := digitsValue_pos number.digit number.leading
    exact mul_pos (Nat.cast_pos.mpr hvalue) (zpow_pos (by norm_num) _)
  have hsplit : number.negative = other.negative ∧
      (digitsValue number.digits : ℚ) * 10 ^ (number.decpt - (number.digits.length : ℤ)) =
        digitsValue other.digits * 10 ^ (other.decpt - (other.digits.length : ℤ)) := by
    have hpos' := hpos number
    have hpos'' := hpos other
    rw [number.value_eq, other.value_eq] at h
    cases hsign : number.negative <;> cases hsign' : other.negative
    all_goals
      simp only [hsign, hsign', false_eq_true, if_false, if_true] at h
      first
      | exact ⟨rfl, by linarith⟩
      | linarith
  obtain ⟨hsign, hvalue⟩ := hsplit
  obtain ⟨hdigits, hpower⟩ := eq_of_mul_zpow (not_ten_dvd number.digit (hne number) hnumber)
    (not_ten_dvd other.digit (hne other) hother) hvalue
  have hdigits' : number.digits = other.digits := by
    rw [← decimal_digitsValue number.digit number.leading, hdigits,
      decimal_digitsValue other.digit other.leading]
  have hdecpt : number.decpt = other.decpt := by
    rw [hdigits'] at hpower
    omega
  rw [parts, parts, hsign, hdigits', hdecpt]

/-! ### Canonical numbers -/

/-- An integral number is spelled by the exact digits of its value.  Where `std::to_chars` yields
the scientific form of some digits, the text of a number denotes just what they say, with a point or
an exponent in it; and numbers with the same text have the same sign, digits and point. -/
theorem canonicalNumbers_denote (toChars : ℚ → List UInt8) :
  (∀ value : ℤ, IsDouble value → ∃ digits, Decimal digits ∧ digitsValue digits = value.natAbs ∧
    canonicalIntegralDecimal value = (if value < 0 then [0x2d] else []) ++ digits) ∧
  ∀ (value : ℚ) (hvalue : value ≠ 0) (number : Scientific), toChars value = number.text →
    numberValue (canonicalDouble toChars (.finite value hvalue)) = some number.value ∧
    (0x2e ∈ canonicalDouble toChars (.finite value hvalue) ∨
      0x65 ∈ canonicalDouble toChars (.finite value hvalue)) ∧
    ∀ (other : ℚ) (hother : other ≠ 0) (number' : Scientific), toChars other = number'.text →
      number.Shortest → number'.Shortest →
      canonicalDouble toChars (.finite value hvalue) =
        canonicalDouble toChars (.finite other hother) →
      number.parts = number'.parts
  := by
  have hlayout : ∀ (value : ℚ) (hvalue : value ≠ 0) (number : Scientific),
      toChars value = number.text →
        canonicalDouble toChars (.finite value hvalue) = number.parts.layout := by
    intro value hvalue number htext
    rw [canonicalDouble, htext, shortestDigits_text]
  constructor
  · intro value hdouble
    refine ⟨decimal value.natAbs, decimal_decimal _, (decimal_spec _).2.1, ?_⟩
    rw [canonicalIntegralDecimal_eq hdouble, printedInt]
    split
    · rfl
    · rfl
  · intro value hvalue number htext
    rw [hlayout value hvalue number htext]
    refine ⟨numberValue_layout number, ?_, ?_⟩
    · exact (mem_layoutDigits _ _).imp (List.mem_append_right _) (List.mem_append_right _)
    · intro other hother number' htext' hshortest hshortest' hsame
      rw [hlayout other hother number' htext'] at hsame
      apply Scientific.parts_eq hshortest hshortest'
      have hvalues := congrArg numberValue hsame
      rw [numberValue_layout, numberValue_layout] at hvalues
      exact Option.some.inj hvalues

/-- The digits of three halves. -/
def threeHalves : Scientific where
  negative := false
  digits := [0x31, 0x35]
  exponent := 0
  digit := rfl
  leading := ⟨0x31, [0x35], rfl, by decide⟩

theorem canonicalNumbers_denote_threeHalves :
  numberValue (canonicalDouble (fun _ => [0x31, 0x2e, 0x35, 0x65, 0x2b, 0x30, 0x30])
    (.finite (3 / 2) (by norm_num))) = some threeHalves.value
  := ((canonicalNumbers_denote _).2 (3 / 2) (by norm_num) threeHalves rfl).1

end GRParse.Render
