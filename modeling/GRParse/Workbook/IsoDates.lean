import GRParse.Lib.Json
import GRParse.Workbook.SerialDates

/-!
# ISO dates

`iso_civil` reads a date, or a date and a time, with two formats of `sscanf`.  A field of such a format
may stand behind blanks and begin with a sign, and may be shorter than its width; the date is then
taken only when all of it is ten bytes long, the time with whatever follows it.
-/

namespace GRParse.Workbook.IsoDates

open Json List Option

/-! ### The code -/

/-- `isspace`. -/
def isSpace (byte : UInt8) : Bool :=
  byte = 0x20 || (0x09 ≤ byte && byte ≤ 0x0d)

/-- The bytes of a text in front of its first zero. -/
def cString (text : List UInt8) : List UInt8 :=
  text.takeWhile (· ≠ 0)

/-- The bytes of a sign. -/
def signOf (text : List UInt8) : List UInt8 :=
  if text.head? = some 0x2d ∨ text.head? = some 0x2b then text.take 1 else []

/-- A conversion `%d` of a width: the number, and what is left. -/
def scanInt (width : ℕ) (text : List UInt8) : Option (ℤ × List UInt8) :=
  let text := text.dropWhile isSpace
  let sign := signOf text
  let digits := ((text.drop sign.length).take (width - sign.length)).takeWhile isDigit
  if digits = [] then none
  else
    some (if sign = [0x2d] then -digitsValue digits else digitsValue digits,
      text.drop (sign.length + digits.length))

/-- A byte of a format that stands for itself. -/
def scanByte (byte : UInt8) : List UInt8 → Option (List UInt8)
  | [] => none
  | first :: rest => if first = byte then some rest else none

/-- Three numbers with a byte between them, the last two of width two. -/
def scanThree (width : ℕ) (separator : UInt8) (text : List UInt8) :
    Option ((ℤ × ℤ × ℤ) × List UInt8) := do
  let (first, text) ← scanInt width text
  let text ← scanByte separator text
  let (second, text) ← scanInt 2 text
  let text ← scanByte separator text
  let (third, text) ← scanInt 2 text
  some ((first, second, third), text)

/-- `iso_civil`. -/
def isoCivil (text : List UInt8) : Option CivilDateTime := do
  let ((year, month, day), rest) ← scanThree 4 0x2d (cString text)
  let consumed := (cString text).length - rest.length
  if consumed ≠ 10 ∨ month < 1 ∨ month > 12 ∨ day < 1 ∨ day > 31 then none
  else if text.length = 10 then some ⟨year, month, day, 0, 0, 0⟩
  else if text[10]? ≠ some 0x54 then none
  else do
    let ((hour, minute, second), _) ← scanThree 2 0x3a (cString (text.drop 11))
    some ⟨year, month, day, hour, minute, second⟩

/-- What `cell` makes of an ISO date: the text of the cell, and a civil value. -/
def isoCell (text : List UInt8) : List UInt8 × Option CivilDateTime :=
  (text, isoCivil text)

/-! ### Dates that are spelled -/

/-- So many digits. -/
def Field (width : ℕ) (digits : List UInt8) : Prop :=
  digits.length = width ∧ digits.all isDigit

/-- `YYYY-MM-DD`. -/
def SpellsDate (text : List UInt8) (value : CivilDateTime) : Prop :=
  ∃ year month day, Field 4 year ∧ Field 2 month ∧ Field 2 day ∧
    text = year ++ 0x2d :: (month ++ 0x2d :: day) ∧
    value.year = digitsValue year ∧ value.month = digitsValue month ∧
    value.day = digitsValue day ∧ 1 ≤ value.month ∧ value.month ≤ 12 ∧ 1 ≤ value.day ∧
    value.day ≤ 31

/-- `hh:mm:ss`. -/
def SpellsTime (text : List UInt8) (value : CivilDateTime) : Prop :=
  ∃ hour minute second, Field 2 hour ∧ Field 2 minute ∧ Field 2 second ∧
    text = hour ++ 0x3a :: (minute ++ 0x3a :: second) ∧
    value.hour = digitsValue hour ∧ value.minute = digitsValue minute ∧
    value.second = digitsValue second ∧ value.hour ≤ 23 ∧ value.minute ≤ 59 ∧ value.second ≤ 59

/-- Nothing, or a point with digits behind it. -/
def Fraction (text : List UInt8) : Prop :=
  text = [] ∨ ∃ digits, digits ≠ [] ∧ digits.all isDigit ∧ text = 0x2e :: digits

/-- The text is a date, or a date and a time, with the numbers of the value. -/
def Spells (text : List UInt8) (value : CivilDateTime) : Prop :=
  (SpellsDate text value ∧ value.hour = 0 ∧ value.minute = 0 ∧ value.second = 0) ∨
    ∃ date time fraction, text = date ++ 0x54 :: (time ++ fraction) ∧ SpellsDate date value ∧
      SpellsTime time value ∧ Fraction fraction

/-! ### What a conversion reads -/

/-- The parts of what a conversion reads: blanks, a sign and digits. -/
structure Reading where
  blanks : List UInt8
  sign : List UInt8
  digits : List UInt8

namespace Reading

def text (reading : Reading) : List UInt8 :=
  reading.blanks ++ (reading.sign ++ reading.digits)

def value (reading : Reading) : ℤ :=
  if reading.sign = [0x2d] then -digitsValue reading.digits else digitsValue reading.digits

/-- Behind any blanks, at most one sign and at least one digit are as long as the width at most. -/
structure Fits (width : ℕ) (reading : Reading) : Prop where
  blanks : reading.blanks.all isSpace
  sign : reading.sign = [] ∨ reading.sign = [0x2d] ∨ reading.sign = [0x2b]
  digits : reading.digits.all isDigit
  ne_nil : reading.digits ≠ []
  length_le : reading.sign.length + reading.digits.length ≤ width

/-- The reading goes no further: the width is used up, or no digit follows. -/
def Ends (width : ℕ) (reading : Reading) (rest : List UInt8) : Prop :=
  reading.sign.length + reading.digits.length = width ∨
    ∀ byte, rest.head? = some byte → isDigit byte = false

/-- The reading of a field of digits alone. -/
def ofDigits (digits : List UInt8) : Reading :=
  ⟨[], [], digits⟩

end Reading

theorem isDigit_spec {byte : UInt8} (h : isDigit byte) :
  isSpace byte = false ∧ byte ≠ 0x2d ∧ byte ≠ 0x2b ∧ byte ≠ 0
  := by
  rw [isDigit, Bool.and_eq_true, decide_eq_true_eq, decide_eq_true_eq] at h
  have hlow : 0x30 ≤ byte.toNat := h.1
  have hne (other : UInt8) (hother : other.toNat < 0x30) : byte ≠ other := by
    rintro rfl
    exact absurd hlow (by omega)
  refine ⟨?_, hne 0x2d (by decide), hne 0x2b (by decide), hne 0 (by decide)⟩
  rw [isSpace, Bool.or_eq_false_iff, Bool.and_eq_false_iff, decide_eq_false_iff_not,
    decide_eq_false_iff_not, decide_eq_false_iff_not]
  refine ⟨hne 0x20 (by decide), .inr ?_⟩
  intro hle
  have hhigh : byte.toNat ≤ 0x0d := hle
  omega

theorem signOf_spec (text : List UInt8) :
  (signOf text = [] ∨ signOf text = [0x2d] ∨ signOf text = [0x2b]) ∧
    text = signOf text ++ text.drop (signOf text).length
  := by
  rw [signOf]
  split
  case isTrue hsign =>
    cases text with
    | nil => simp at hsign
    | cons first rest =>
      simp only [head?_cons, some.injEq] at hsign
      obtain rfl | rfl := hsign
      · exact ⟨.inr (.inl rfl), rfl⟩
      · exact ⟨.inr (.inr rfl), rfl⟩
  case isFalse => exact ⟨.inl rfl, rfl⟩

/-- The digits of a reading have no byte in front of them that is taken for another part. -/
theorem signOf_append {sign digits rest : List UInt8} (hsign : sign = [] ∨ sign = [0x2d] ∨ sign = [0x2b])
    (hdigits : digits.all isDigit) (hne : digits ≠ []) :
  signOf (sign ++ (digits ++ rest)) = sign
  := by
  obtain rfl | rfl | rfl := hsign
  · cases digits with
    | nil => exact absurd rfl hne
    | cons digit digits =>
      rw [all_cons, Bool.and_eq_true] at hdigits
      obtain ⟨-, hminus, hplus, -⟩ := isDigit_spec hdigits.1
      exact if_neg (by simp [hminus, hplus])
  · rfl
  · rfl

/-- No blank is in front of a sign or a digit. -/
theorem dropWhile_isSpace {sign digits rest : List UInt8}
    (hsign : sign = [] ∨ sign = [0x2d] ∨ sign = [0x2b]) (hdigits : digits.all isDigit)
    (hne : digits ≠ []) :
  (sign ++ (digits ++ rest)).dropWhile isSpace = sign ++ (digits ++ rest)
  := by
  obtain rfl | rfl | rfl := hsign
  · cases digits with
    | nil => exact absurd rfl hne
    | cons digit digits =>
      rw [all_cons, Bool.and_eq_true] at hdigits
      exact dropWhile_cons_of_neg (by simp [(isDigit_spec hdigits.1).1])
  · rfl
  · rfl

theorem takeWhile_take_append {digits rest : List UInt8} {count : ℕ} (hdigits : digits.all isDigit)
    (hcount : digits.length ≤ count)
    (hends : digits.length = count ∨ ∀ byte, rest.head? = some byte → isDigit byte = false) :
  ((digits ++ rest).take count).takeWhile isDigit = digits
  := by
  have hall : ∀ byte ∈ digits, isDigit byte = true := all_eq_true.mp hdigits
  rw [take_append, take_of_length_le hcount, takeWhile_append_of_pos hall]
  have hnone : (rest.take (count - digits.length)).takeWhile isDigit = [] := by
    rw [takeWhile_eq_nil_iff]
    intro hpos
    obtain hlength | hhead := hends
    · simp [hlength] at hpos
    · cases rest with
      | nil => simp at hpos
      | cons byte rest =>
        have hbyte := hhead byte rfl
        simp [getElem_take, hbyte]
  rw [hnone, append_nil]

/-- The digits of a conversion are as many as there are, unless the width is used up. -/
theorem ends_takeWhile_take (text : List UInt8) (count : ℕ) :
  ((text.take count).takeWhile isDigit).length = count ∨
    ∀ byte, (text.drop ((text.take count).takeWhile isDigit).length).head? = some byte →
      isDigit byte = false
  := by
  induction text generalizing count with
  | nil => exact .inr (by simp)
  | cons first text ih =>
    cases count with
    | zero => exact .inl rfl
    | succ count =>
      cases hfirst : isDigit first with
      | true =>
        rw [take_succ_cons, takeWhile_cons_of_pos hfirst, length_cons,
          drop_succ_cons]
        exact (ih count).imp (congrArg Nat.succ) id
      | false =>
        rw [take_succ_cons, takeWhile_cons_of_neg (by simp [hfirst])]
        refine .inr ?_
        rintro byte ⟨⟩
        exact hfirst

variable {width : ℕ}

/-- What a conversion reads, and nothing else. -/
theorem scanInt_eq_some_iff {text rest : List UInt8} {value : ℤ} :
  scanInt width text = some (value, rest) ↔
    ∃ reading : Reading, reading.Fits width ∧ reading.Ends width rest ∧
      text = reading.text ++ rest ∧ value = reading.value
  := by
  constructor
  · intro h
    rw [scanInt] at h
    generalize hbody : text.dropWhile isSpace = body at h
    split at h
    case isTrue => cases h
    case isFalse hne =>
      obtain ⟨hvalue, hrest⟩ := Prod.mk.inj (some.inj h)
      obtain ⟨hsign, hsplit⟩ := signOf_spec body
      generalize signOf body = sign at *
      have hends := ends_takeWhile_take (body.drop sign.length) (width - sign.length)
      have hdigit : (((body.drop sign.length).take (width - sign.length)).takeWhile isDigit).all
          isDigit := all_takeWhile
      have hprefix : ((body.drop sign.length).take (width - sign.length)).takeWhile isDigit <+:
          body.drop sign.length := ( takeWhile_prefix _).trans ( take_prefix _ _)
      have hcount : (((body.drop sign.length).take (width - sign.length)).takeWhile isDigit).length ≤
          width - sign.length :=
        ( takeWhile_prefix _).length_le.trans (length_take_le _ _)
      generalize ((body.drop sign.length).take (width - sign.length)).takeWhile isDigit = digits at *
      rw [← drop_drop] at hrest
      have hpos : 0 < digits.length := length_pos_of_ne_nil hne
      refine ⟨⟨text.takeWhile isSpace, sign, digits⟩,
        ⟨all_takeWhile, hsign, hdigit, hne, ?_⟩, ?_, ?_, hvalue.symm⟩
      · dsimp only
        omega
      · rw [hrest] at hends
        exact hends.imp (fun hfull => by dsimp only; omega) id
      · obtain ⟨more, hmore⟩ := hprefix
        rw [← hmore, drop_left] at hrest
        rw [← hrest, Reading.text, append_assoc, append_assoc, hmore, ← hsplit, ← hbody,
          takeWhile_append_dropWhile]
  · rintro ⟨reading, hfits, hends, rfl, rfl⟩
    have hblanks : ∀ byte ∈ reading.blanks, isSpace byte = true :=
      all_eq_true.mp hfits.blanks
    have hsign := @signOf_append _ _ rest hfits.sign hfits.digits hfits.ne_nil
    have hbody : (reading.text ++ rest).dropWhile isSpace =
        reading.sign ++ (reading.digits ++ rest) := by
      rw [Reading.text, append_assoc, dropWhile_append_of_pos hblanks, append_assoc]
      exact dropWhile_isSpace hfits.sign hfits.digits hfits.ne_nil
    have hdigits : ((reading.digits ++ rest).take (width - reading.sign.length)).takeWhile isDigit =
        reading.digits := by
      have hle := hfits.length_le
      apply takeWhile_take_append hfits.digits (by omega)
      exact hends.imp (fun hfull => by omega) id
    rw [scanInt, hbody, hsign, drop_left, hdigits, if_neg hfits.ne_nil, ← drop_drop, drop_left,
      drop_left]
    rfl

theorem scanByte_eq_some_iff {byte : UInt8} {text rest : List UInt8} :
  scanByte byte text = some rest ↔ text = byte :: rest
  := by
  cases text with
  | nil => simp [scanByte]
  | cons first text =>
    rw [scanByte]
    split
    case isTrue h => simp [h]
    case isFalse h => simp [h]

/-! ### What the formats read -/

/-- What three conversions read. -/
structure Three where
  first : Reading
  second : Reading
  third : Reading

namespace Three

def text (separator : UInt8) (three : Three) : List UInt8 :=
  three.first.text ++ separator :: (three.second.text ++ separator :: three.third.text)

structure Fits (width : ℕ) (three : Three) : Prop where
  first : three.first.Fits width
  second : three.second.Fits 2
  third : three.third.Fits 2

def values (three : Three) : ℤ × ℤ × ℤ :=
  (three.first.value, three.second.value, three.third.value)

end Three

theorem scanThree_eq_some_iff {separator : UInt8} (hseparator : isDigit separator = false)
    {text rest : List UInt8} {numbers : ℤ × ℤ × ℤ} :
  scanThree width separator text = some (numbers, rest) ↔
    ∃ three : Three, three.Fits width ∧ three.third.Ends 2 rest ∧
      text = three.text separator ++ rest ∧ numbers = three.values
  := by
  have hends (width : ℕ) (reading : Reading) (more : List UInt8) :
      reading.Ends width (separator :: more) := by
    refine .inr ?_
    rintro byte ⟨⟩
    exact hseparator
  constructor
  · intro h
    simp only [scanThree, bind_eq_bind, bind_eq_some_iff] at h
    obtain ⟨⟨first, behind⟩, hfirst, behind', hseparator', ⟨second, behind''⟩, hsecond, behind₃,
      hseparator'', ⟨third, behind₄⟩, hthird, hnumbers⟩ := h
    obtain ⟨rfl, rfl⟩ := Prod.mk.inj (some.inj hnumbers)
    obtain ⟨reading, hfits, -, rfl, rfl⟩ := scanInt_eq_some_iff.mp hfirst
    obtain rfl := scanByte_eq_some_iff.mp hseparator'
    obtain ⟨reading', hfits', -, rfl, rfl⟩ := scanInt_eq_some_iff.mp hsecond
    obtain rfl := scanByte_eq_some_iff.mp hseparator''
    obtain ⟨reading'', hfits'', hends'', rfl, rfl⟩ := scanInt_eq_some_iff.mp hthird
    refine ⟨⟨reading, reading', reading''⟩, ⟨hfits, hfits', hfits''⟩, hends'', ?_, rfl⟩
    simp [Three.text]
  · rintro ⟨⟨reading, reading', reading''⟩, hfits, hends'', rfl, rfl⟩
    have hfirst := scanInt_eq_some_iff.mpr
      ⟨reading, hfits.first, hends width reading
        (reading'.text ++ separator :: (reading''.text ++ rest)), rfl, rfl⟩
    have hsecond := scanInt_eq_some_iff.mpr
      ⟨reading', hfits.second, hends 2 reading' (reading''.text ++ rest), rfl, rfl⟩
    have hthird := scanInt_eq_some_iff.mpr ⟨reading'', hfits.third, hends'', rfl, rfl⟩
    have htext : Three.text separator ⟨reading, reading', reading''⟩ ++ rest =
        reading.text ++ separator :: (reading'.text ++ separator :: (reading''.text ++ rest)) := by
      simp [Three.text]
    have hbyte (more : List UInt8) : scanByte separator (separator :: more) = some more := if_pos rfl
    simp only [scanThree, htext, hfirst, hsecond, hthird, hbyte, bind_eq_bind,
      bind_some, Three.values]

/-! ### Zeros -/

theorem Reading.Fits.ne_zero {reading : Reading} (h : reading.Fits width) :
  ∀ byte ∈ reading.text, byte ≠ 0
  := by
  intro byte hbyte
  rw [Reading.text, mem_append, mem_append] at hbyte
  obtain hbyte | hbyte | hbyte := hbyte
  · rintro rfl
    exact absurd (all_eq_true.mp h.blanks 0 hbyte) (by decide)
  · obtain hsign | hsign | hsign := h.sign
    · simp [hsign] at hbyte
    · rw [hsign, mem_singleton] at hbyte
      rw [hbyte]
      decide
    · rw [hsign, mem_singleton] at hbyte
      rw [hbyte]
      decide
  · exact (isDigit_spec (all_eq_true.mp h.digits byte hbyte)).2.2.2

theorem Three.Fits.ne_zero {width : ℕ} {three : Three} (h : three.Fits width) {separator : UInt8}
    (hseparator : separator ≠ 0) :
  ∀ byte ∈ three.text separator, byte ≠ 0
  := by
  intro byte hbyte
  rw [Three.text, mem_append, mem_cons, mem_append, mem_cons] at hbyte
  obtain hbyte | rfl | hbyte | rfl | hbyte := hbyte
  · exact h.first.ne_zero byte hbyte
  · exact hseparator
  · exact h.second.ne_zero byte hbyte
  · exact hseparator
  · exact h.third.ne_zero byte hbyte

theorem cString_append {front : List UInt8} (hfront : ∀ byte ∈ front, byte ≠ 0)
    (rest : List UInt8) :
  cString (front ++ rest) = front ++ cString rest
  := takeWhile_append_of_pos fun byte hbyte => by simpa using hfront byte hbyte

/-- What is in front of the first zero is in front of the text. -/
theorem exists_of_cString {text front back : List UInt8} (hfront : ∀ byte ∈ front, byte ≠ 0)
    (h : cString text = front ++ back) :
  ∃ rest, text = front ++ rest ∧ cString rest = back
  := by
  have hsplit : text = front ++ (back ++ text.dropWhile (· ≠ 0)) := by
    rw [← append_assoc, ← h]
    exact (takeWhile_append_dropWhile).symm
  refine ⟨_, hsplit, ?_⟩
  apply append_cancel_left
  rw [← h, ← cString_append hfront, ← hsplit]

/-- A zero is no digit. -/
theorem ends_cString {reading : Reading} {rest : List UInt8} :
  reading.Ends width (cString rest) ↔ reading.Ends width rest
  := by
  cases rest with
  | nil => rfl
  | cons first rest =>
    by_cases hzero : first = 0
    · have hnil : cString (first :: rest) = [] := takeWhile_cons_of_neg (by simp [hzero])
      rw [hnil, hzero]
      refine ⟨fun _ => .inr ?_, fun _ => .inr nofun⟩
      rintro byte ⟨⟩
      rfl
    · have hcons : cString (first :: rest) = first :: cString rest :=
        takeWhile_cons_of_pos (by simpa using hzero)
      rw [hcons]
      rfl

/-! ### What is taken for a date -/

/-- Ten bytes are taken for the day of a value: three conversions read them, and the month and the
day are in range. -/
structure TakenForDay (date : Three) (value : CivilDateTime) : Prop where
  fits : date.Fits 4
  length : (date.text 0x2d).length = 10
  values : date.values = (value.year, value.month, value.day)
  range : 1 ≤ value.month ∧ value.month ≤ 12 ∧ 1 ≤ value.day ∧ value.day ≤ 31

/-- A text is taken for a value: nothing is behind the day, or a `T` and what three conversions read,
with anything behind it. -/
def TakenFor (text : List UInt8) (value : CivilDateTime) : Prop :=
  ∃ date : Three, TakenForDay date value ∧
    ((text = date.text 0x2d ∧ value.hour = 0 ∧ value.minute = 0 ∧ value.second = 0) ∨
      ∃ (time : Three) (rest : List UInt8), time.Fits 2 ∧ time.third.Ends 2 rest ∧
        text = date.text 0x2d ++ 0x54 :: (time.text 0x3a ++ rest) ∧
        time.values = (value.hour, value.minute, value.second))

theorem isoCivil_eq_some_iff {text : List UInt8} {value : CivilDateTime} :
  isoCivil text = some value ↔ TakenFor text value
  := by
  constructor
  · intro h
    rw [isoCivil, bind_eq_bind, bind_eq_some_iff] at h
    obtain ⟨⟨⟨year, month, day⟩, rest⟩, hscan, h⟩ := h
    obtain ⟨date, hfits, hends, hdate, hnumbers⟩ := (scanThree_eq_some_iff (by decide)).mp hscan
    obtain ⟨after, hafter, hrest⟩ := exists_of_cString (hfits.ne_zero (by decide)) hdate
    dsimp only at h
    split at h
    · cases h
    rename_i hrange
    rw [hdate, length_append, Nat.add_sub_cancel] at hrange
    have hlength : (date.text 0x2d).length = 10 := by omega
    have hdrop : text.drop 10 = after := by
      rw [hafter, ← hlength, drop_left]
    split at h
    · rename_i hshort
      obtain rfl := some.inj h
      have hnil : after = [] := by
        rw [← hdrop, drop_eq_nil_iff]
        omega
      refine ⟨date, ⟨hfits, hlength, hnumbers.symm, by dsimp only; omega⟩, .inl ⟨?_, rfl, rfl, rfl⟩⟩
      rw [hafter, hnil, append_nil]
    split at h
    · cases h
    rename_i hletter
    rw [bind_eq_some_iff] at h
    obtain ⟨⟨⟨hour, minute, second⟩, rest'⟩, hscan', h⟩ := h
    obtain rfl := some.inj h
    obtain ⟨time, hfits', hends', htime, hnumbers'⟩ := (scanThree_eq_some_iff (by decide)).mp hscan'
    obtain ⟨behind, hbehind, hrest'⟩ := exists_of_cString (hfits'.ne_zero (by decide)) htime
    refine ⟨date, ⟨hfits, hlength, hnumbers.symm, by dsimp only; omega⟩,
      .inr ⟨time, behind, hfits', ?_, ?_, hnumbers'.symm⟩⟩
    · rw [← ends_cString, hrest']
      exact hends'
    · rw [not_not, ← head?_drop, hdrop] at hletter
      have htail : text.drop 11 = after.tail := by
        rw [← hdrop, tail_drop]
      rw [hafter, ← hbehind, htail]
      cases after with
      | nil => cases hletter
      | cons first after =>
        obtain rfl := some.inj hletter
        rfl
  · rintro ⟨date, ⟨hfits, hlength, hvalues, hrange⟩, htext⟩
    obtain ⟨after, hafter, hends⟩ : ∃ after, text = date.text 0x2d ++ after ∧
        date.third.Ends 2 (cString after) := by
      obtain ⟨rfl, -⟩ | ⟨time, rest, -, -, rfl, -⟩ := htext
      · exact ⟨[], (append_nil _).symm, .inr nofun⟩
      · refine ⟨_, rfl, ends_cString.mpr (.inr ?_)⟩
        rintro byte ⟨⟩
        rfl
    have hscan := (scanThree_eq_some_iff (show isDigit 0x2d = false by decide)).mpr
      ⟨date, hfits, hends, rfl, rfl⟩
    rw [← cString_append (hfits.ne_zero (by decide)), ← hafter, hvalues] at hscan
    rw [isoCivil, hscan, bind_eq_bind, bind_some]
    dsimp only
    have hconsumed : (cString text).length - (cString after).length = 10 := by
      rw [hafter, cString_append (hfits.ne_zero (by decide)), length_append,
        Nat.add_sub_cancel, hlength]
    rw [hconsumed, if_neg (by omega)]
    obtain ⟨rfl, hhour, hminute, hsecond⟩ | ⟨time, rest, hfits', hends', htext, hvalues'⟩ := htext
    · rw [if_pos hlength]
      cases value
      dsimp only at hhour hminute hsecond
      rw [hhour, hminute, hsecond]
    · have hlong : ¬ text.length = 10 := by
        rw [htext, length_append, hlength, length_cons]
        omega
      have hletter : text[10]? = some 0x54 := by
        rw [htext, getElem?_append_right (by omega), hlength]
        rfl
      have hdrop : text.drop 11 = time.text 0x3a ++ rest := by
        rw [htext, show 11 = 10 + 1 from rfl, ← drop_drop, ← hlength, drop_left]
        rfl
      have hscan' := (scanThree_eq_some_iff (show isDigit 0x3a = false by decide)).mpr
        ⟨time, hfits', ends_cString.mpr hends', rfl, rfl⟩
      rw [← cString_append (hfits'.ne_zero (by decide)), hvalues'] at hscan'
      rw [if_neg hlong, if_neg (not_not.mpr hletter), hdrop, hscan', bind_some]

/-! ### Typed cells -/

theorem Field.fits {digits : List UInt8} (h : Field width digits) (hpos : 0 < width) :
  (Reading.ofDigits digits).Fits width
  := by
  refine ⟨rfl, .inl rfl, h.2, ?_, ?_⟩
  · exact ne_nil_of_length_pos (h.1 ▸ hpos)
  · exact (Nat.zero_add _).trans_le h.1.le

/-- What is spelled is taken for its value. -/
theorem Spells.takenFor {text : List UInt8} {value : CivilDateTime} (h : Spells text value) :
  TakenFor text value
  := by
  have hday {date : List UInt8} (hdate : SpellsDate date value) :
      ∃ three : Three, TakenForDay three value ∧ date = three.text 0x2d := by
    obtain ⟨year, month, day, hyear, hmonth, hday, rfl, hvalues⟩ := hdate
    obtain ⟨hyear', hmonth', hday', hrange⟩ := hvalues
    refine ⟨⟨.ofDigits year, .ofDigits month, .ofDigits day⟩, ⟨⟨hyear.fits (by decide),
      hmonth.fits (by decide), hday.fits (by decide)⟩, ?_, ?_, hrange⟩, rfl⟩
    · have hlength := hyear.1
      have hlength' := hmonth.1
      have hlength'' := hday.1
      simp [Three.text, Reading.text, Reading.ofDigits, hlength, hlength', hlength'']
    · rw [hyear', hmonth', hday']
      rfl
  obtain ⟨hdate, hzero⟩ | ⟨date, time, fraction, rfl, hdate, htime, hfraction⟩ := h
  · obtain ⟨three, htaken, htext⟩ := hday hdate
    exact ⟨three, htaken, .inl ⟨htext, hzero⟩⟩
  · obtain ⟨three, htaken, rfl⟩ := hday hdate
    obtain ⟨hour, minute, second, hhour, hminute, hsecond, rfl, hvalues⟩ := htime
    obtain ⟨hhour', hminute', hsecond', -⟩ := hvalues
    refine ⟨three, htaken, .inr ⟨⟨.ofDigits hour, .ofDigits minute, .ofDigits second⟩, fraction,
      ⟨hhour.fits (by decide), hminute.fits (by decide), hsecond.fits (by decide)⟩, .inl ?_, rfl, ?_⟩⟩
    · exact (Nat.zero_add _).trans hsecond.1
    · rw [hhour', hminute', hsecond']
      rfl

/-- A cell is typed exactly by what its text spells when whatever is taken for a date spells it. -/
theorem isoCell_typed_iff (text : List UInt8) :
  ((isoCell text).1 = text ∧ ∀ value, (isoCell text).2 = some value ↔ Spells text value) ↔
    ∀ value, TakenFor text value → Spells text value
  := by
  constructor
  · intro h value htaken
    exact (h.2 value).mp (isoCivil_eq_some_iff.mpr htaken)
  · intro h
    refine ⟨rfl, ?_⟩
    intro value
    constructor
    · intro htyped
      exact h value (isoCivil_eq_some_iff.mp htyped)
    · intro hspells
      exact isoCivil_eq_some_iff.mpr hspells.takenFor

/-- `2015-04-13T09:30:00Z`. -/
def zuluTime : List UInt8 :=
  [0x32, 0x30, 0x31, 0x35, 0x2d, 0x30, 0x34, 0x2d, 0x31, 0x33, 0x54, 0x30, 0x39, 0x3a, 0x33, 0x30,
    0x3a, 0x30, 0x30, 0x5a]

theorem isoCell_zuluTime :
  (isoCell zuluTime).2 = some ⟨2015, 4, 13, 9, 30, 0⟩ ∧ ∀ value, ¬ Spells zuluTime value
  := by
  refine ⟨by decide, ?_⟩
  rintro value (⟨⟨year, month, day, hyear, hmonth, hday, htext, -⟩, -⟩ |
    ⟨date, time, fraction, htext, ⟨year, month, day, hyear, hmonth, hday, rfl, -⟩,
      ⟨hour, minute, second, hhour, hminute, hsecond, rfl, -⟩, hfraction⟩)
  · have hlength := congrArg List.length htext
    simp [zuluTime, hyear.1, hmonth.1, hday.1] at hlength
  · have hlength := congrArg List.length htext
    simp only [zuluTime, List.length_append, List.length_cons, List.length_nil, hyear.1, hmonth.1,
      hday.1, hhour.1, hminute.1, hsecond.1] at hlength
    obtain rfl | ⟨digits, hne, -, rfl⟩ := hfraction
    · simp at hlength
    · have hpos := List.length_pos_of_ne_nil hne
      rw [List.length_cons] at hlength
      omega

end GRParse.Workbook.IsoDates
