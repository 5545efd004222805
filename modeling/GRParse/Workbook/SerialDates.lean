import GRParse.Lib.Gregorian
import Mathlib.Data.Rat.Floor

/-!
# Serial dates

A spreadsheet keeps a moment as the number of days since the epoch of its date system, the
time of day as a fraction.  `days_from_civil` and `civil_from_days` count days from
1970-01-01 in years that begin in March, in eras of 400 of them; `excel_serial_civil` takes a
serial apart into its fields.

Signed 64-bit numbers are `ℤ`: for days below 2^40 none of them leaves its range.  Unsigned
ones wrap, and the code relies on it where it adds -3 or -9; the wire keeps 32 bits of each
field.
-/

namespace GRParse.Workbook

open Gregorian Int

/-! ### The code -/

/-- A conversion to `unsigned`. -/
def unsigned (x : ℤ) : ℤ :=
  x % 4294967296

/-- A conversion to `int32_t`. -/
def int32 (x : ℤ) : ℤ :=
  (x + 2147483648) % 4294967296 - 2147483648

/-- `days_from_civil`. -/
def daysFromCivil (date : Date) : ℤ :=
  let year := if date.month ≤ 2 then date.year - 1 else date.year
  let era := (if 0 ≤ year then year else year - 399).tdiv 400
  let yoe := unsigned (year - era * 400)
  let month := unsigned (date.month + if 2 < date.month then -3 else 9)
  let doy := unsigned (unsigned (153 * month + 2) / 5 + date.day - 1)
  let doe := unsigned (yoe * 365 + yoe / 4 - yoe / 100 + doy)
  era * 146097 + doe - 719468

/-- `civil_from_days`. -/
def civilFromDays (z : ℤ) : Date :=
  let z := z + 719468
  let era := (if 0 ≤ z then z else z - 146096).tdiv 146097
  let doe := unsigned (z - era * 146097)
  let yoe := unsigned (doe - doe / 1460 + doe / 36524 - doe / 146096) / 365
  let y := yoe + era * 400
  let doy := unsigned (doe - (365 * yoe + yoe / 4 - yoe / 100))
  let mp := unsigned (5 * doy + 2) / 153
  let day := unsigned (doy - unsigned (153 * mp + 2) / 5 + 1)
  let month := unsigned (mp + if mp < 10 then 3 else -9)
  { year := if month ≤ 2 then y + 1 else y, month := month, day := day }

/-- An `ExcelDateTime`: days since the epoch of the date system. -/
structure ExcelDateTime where
  value : ℚ
  is1904 : Bool

/-- A `CivilDateTime`. -/
structure CivilDateTime where
  year : ℤ
  month : ℤ
  day : ℤ
  hour : ℤ
  minute : ℤ
  second : ℤ
  deriving DecidableEq, Repr

/-- The epoch of the date system. -/
def ExcelDateTime.epoch (serial : ExcelDateTime) : Date :=
  if serial.is1904 then ⟨1904, 1, 1⟩ else ⟨1899, 12, 30⟩

/-- `std::llround`: to the nearest integer, halfway cases away from zero. -/
def llround (x : ℚ) : ℤ :=
  if 0 ≤ x then ⌊x + 1 / 2⌋ else ⌈x - 1 / 2⌉

/-- `excel_serial_civil`. -/
def excelSerialCivil (serial : ExcelDateTime) : CivilDateTime :=
  let base := daysFromCivil serial.epoch
  let wholeDays := ⌊serial.value⌋
  let seconds := llround ((serial.value - wholeDays) * 86400)
  let (days, seconds) :=
    if 86400 ≤ seconds then (wholeDays + 1, seconds - 86400) else (wholeDays, seconds)
  let date := civilFromDays (base + days)
  { year := int32 date.year
    month := int32 date.month
    day := int32 date.day
    hour := int32 ((seconds.tdiv 3600).tmod 24)
    minute := int32 ((seconds.tdiv 60).tmod 60)
    second := int32 (seconds.tmod 60) }

/-! ### Years that begin in March -/

/-- The days before the first of March of a year, from the year zero on. -/
def marchDays (year : ℤ) : ℤ :=
  365 * year + year / 4 - year / 100 + year / 400

/-- A year that begins in March ends with the February of the next one. -/
theorem marchDays_succ (year : ℤ) :
  marchDays (year + 1) - marchDays year = if Leap (year + 1) then 366 else 365
  := by
  unfold marchDays Leap
  split_ifs <;> omega

theorem unsigned_eq {x : ℤ} (h0 : 0 ≤ x) (h1 : x < 4294967296) :
  unsigned x = x
  := emod_eq_of_lt h0 h1

/-- Division that rounds up below zero is brought down by what was subtracted. -/
theorem tdiv_floor (x n : ℤ) (hn : 0 < n) :
  (if 0 ≤ x then x else x - (n - 1)).tdiv n = x / n
  := by
  split
  · next h => exact Int.tdiv_eq_ediv_of_nonneg h
  · next h =>
    have hneg : x - (n - 1) = -(n - 1 - x) := by ring
    rw [hneg, Int.neg_tdiv, Int.tdiv_eq_ediv_of_nonneg (by omega)]
    have hdiv := Int.mul_ediv_add_emod (n - 1 - x) n
    have hlow := Int.emod_nonneg (n - 1 - x) hn.ne'
    have hhigh := Int.emod_lt_of_pos (n - 1 - x) hn
    apply Eq.symm
    apply ((Int.ediv_emod_unique hn (r := n - 1 - (n - 1 - x) % n)).mpr ⟨?_, ?_, ?_⟩).1
    · linarith
    · omega
    · omega

/-- The date of a day of a year that begins in March. -/
def marchDate (year day : ℤ) : Date :=
  let mp := (5 * day + 2) / 153
  { year := if mp < 10 then year else year + 1
    month := if mp < 10 then mp + 3 else mp - 9
    day := day - (153 * mp + 2) / 5 + 1 }

/-- A day of a year that begins in March. -/
def InMarchYear (year day : ℤ) : Prop :=
  0 ≤ day ∧ day < marchDays (year + 1) - marchDays year

variable {year day : ℤ}

theorem InMarchYear.le (h : InMarchYear year day) :
  0 ≤ day ∧ day ≤ if Leap (year + 1) then 365 else 364
  := by
  obtain ⟨hlow, hhigh⟩ := h
  rw [marchDays_succ] at hhigh
  refine ⟨hlow, ?_⟩
  split at hhigh
  · next hleap =>
    rw [if_pos hleap]
    omega
  · next hleap =>
    rw [if_neg hleap]
    omega

/-- The date of a day is in the calendar. -/
theorem marchDate_valid (h : InMarchYear year day) :
  (marchDate year day).Valid
  := by
  obtain ⟨hlow, hhigh⟩ := h.le
  obtain ⟨mp, hmp⟩ : ∃ mp, mp = (5 * day + 2) / 153 := ⟨_, rfl⟩
  have hmp0 : 0 ≤ mp := by omega
  have hmp1 : mp ≤ 11 := by
    split at hhigh <;> omega
  unfold marchDate
  simp only [← hmp]
  -- the month is one of twelve; only the last one asks whether the year is a leap year
  interval_cases mp
  all_goals
    constructor
    · simp
    · simp
    · simp only
      omega
    · simp only [monthLength]
      split at hhigh
      · next hleap => simp [hleap]; omega
      · next hleap => simp [hleap]; omega

/-- Every date of the calendar is the date of a day. -/
theorem exists_marchDate {date : Date} (h : date.Valid) :
  ∃ year day, InMarchYear year day ∧ date = marchDate year day
  := by
  obtain ⟨year, month, day⟩ := date
  obtain ⟨hmonth, hmonth', hday, hday'⟩ := h
  simp only at hmonth hmonth' hday hday'
  have hlength : 365 ≤ if Leap (year - 1 + 1) then (366 : ℤ) else 365 := by
    split <;> omega
  have hlength' : 365 ≤ if Leap (year + 1) then (366 : ℤ) else 365 := by
    split <;> omega
  obtain ⟨mp, hmp⟩ : ∃ mp, mp = if 2 < month then month - 3 else month + 9 := ⟨_, rfl⟩
  refine ⟨if 2 < month then year else year - 1, (153 * mp + 2) / 5 + day - 1, ?_, ?_⟩
  · rw [InMarchYear, marchDays_succ]
    interval_cases month
    case «2» =>
      norm_num at hmp hday' ⊢
      subst hmp
      simp only [monthLength, if_true] at hday'
      split at hday'
      · next hleap =>
        rw [if_pos hleap]
        omega
      · next hleap =>
        rw [if_neg hleap]
        omega
    all_goals
      norm_num [monthLength] at hmp hday' hlength ⊢
      subst hmp
      omega
  · have hmp' : (5 * ((153 * mp + 2) / 5 + day - 1) + 2) / 153 = mp := by
      have hfebruary : (if Leap year then (29 : ℤ) else 28) ≤ 29 := by split <;> omega
      interval_cases month
      all_goals
        norm_num [monthLength] at hmp hday'
        subst hmp
        omega
    simp only [marchDate, hmp', Date.mk.injEq]
    split at hmp
    · next hlate =>
      rw [if_pos (by omega), if_pos (by omega)]
      omega
    · next hearly =>
      rw [if_neg (by omega), if_neg (by omega)]
      omega

/-- A day of an era lies in one of its years: in a year of four in a stretch of 25 fours in
one of four centuries, whose last year may have a day more. -/
theorem exists_yearOfEra (doe : ℤ) (h0 : 0 ≤ doe) (h1 : doe ≤ 146096) :
  ∃ century four year day : ℤ, (0 ≤ century ∧ century ≤ 3) ∧ (0 ≤ four ∧ four ≤ 24) ∧
    (0 ≤ year ∧ year ≤ 3) ∧ 0 ≤ day ∧
    (day ≤ 364 ∨ day = 365 ∧ year = 3 ∧ (four < 24 ∨ century = 3)) ∧
    doe = 36524 * century + 1461 * four + 365 * year + day
  := by
  obtain ⟨century, hcentury⟩ : ∃ century, century = min (doe / 36524) 3 := ⟨_, rfl⟩
  obtain ⟨four, hfour⟩ : ∃ four, four = (doe - 36524 * century) / 1461 := ⟨_, rfl⟩
  obtain ⟨year, hyear⟩ : ∃ year, year = min ((doe - 36524 * century - 1461 * four) / 365) 3 :=
    ⟨_, rfl⟩
  refine ⟨century, four, year, doe - 36524 * century - 1461 * four - 365 * year, ?_, ?_, ?_, ?_,
    ?_, ?_⟩ <;> omega

theorem marchDays_split (era : ℤ) {century four year : ℤ} (hcentury : 0 ≤ century ∧ century ≤ 3)
    (hfour : 0 ≤ four ∧ four ≤ 24) (hyear : 0 ≤ year ∧ year ≤ 3) :
  marchDays (400 * era + 100 * century + 4 * four + year) =
    146097 * era + (36524 * century + 1461 * four + 365 * year)
  := by
  have hfours : (400 * era + 100 * century + 4 * four + year) / 4 =
      100 * era + 25 * century + four := by omega
  have hcenturies : (400 * era + 100 * century + 4 * four + year) / 100 =
      4 * era + century := by omega
  have heras : (400 * era + 100 * century + 4 * four + year) / 400 = era := by omega
  rw [marchDays, hfours, hcenturies, heras]
  ring

/-- Every number of days falls into a year. -/
theorem exists_inMarchYear (z : ℤ) :
  ∃ year day, InMarchYear year day ∧ z = marchDays year + day
  := by
  obtain ⟨century, four, year, day, hcentury, hfour, hyear, hday, hday', hsplit⟩ :=
    exists_yearOfEra (z % 146097) (by omega) (by omega)
  have hdays := marchDays_split (z / 146097) hcentury hfour hyear
  refine ⟨400 * (z / 146097) + 100 * century + 4 * four + year, day, ⟨hday, ?_⟩, by omega⟩
  rw [marchDays_succ]
  rcases hday' with hday' | ⟨hday', hyear', hlast⟩
  · split <;> omega
  · have hleap : Leap (400 * (z / 146097) + 100 * century + 4 * four + year + 1) := by
      constructor
      · omega
      · omega
    rw [if_pos hleap]
    omega

/-! ### The two counts -/

/-- `days_from_civil` counts the days of the years before, of the months before in the year,
and of the month. -/
theorem daysFromCivil_eq {date : Date} (hmonth : 1 ≤ date.month) (hmonth' : date.month ≤ 12)
    (hday : 1 ≤ date.day) (hday' : date.day ≤ 31) :
  daysFromCivil date =
    marchDays (if date.month ≤ 2 then date.year - 1 else date.year) +
      (153 * (if date.month ≤ 2 then date.month + 9 else date.month - 3) + 2) / 5 +
      date.day - 1 - 719468
  := by
  obtain ⟨year, hyear⟩ : ∃ year, year = if date.month ≤ 2 then date.year - 1 else date.year :=
    ⟨_, rfl⟩
  obtain ⟨mp, hmp⟩ : ∃ mp, mp = if date.month ≤ 2 then date.month + 9 else date.month - 3 :=
    ⟨_, rfl⟩
  have hmp' : 0 ≤ mp ∧ mp ≤ 11 := by split at hmp <;> omega
  have hmonth : unsigned (date.month + if 2 < date.month then -3 else 9) = mp := by
    unfold unsigned
    split at hmp <;> split <;> omega
  have hera := tdiv_floor year 400 (by omega)
  norm_num at hera
  simp only [daysFromCivil, ← hyear, ← hmp, hmonth, hera]
  rw [unsigned_eq (x := 153 * mp + 2) (by omega) (by omega),
    unsigned_eq (x := (153 * mp + 2) / 5 + date.day - 1) (by omega) (by omega),
    unsigned_eq (x := year - year / 400 * 400) (by omega) (by omega),
    unsigned_eq (by omega) (by omega), marchDays]
  omega

theorem daysFromCivil_marchDate (h : InMarchYear year day) :
  daysFromCivil (marchDate year day) = marchDays year + day - 719468
  := by
  have hvalid := marchDate_valid h
  obtain ⟨hlow, hhigh⟩ := h.le
  have hlength := hvalid.day_le.trans (monthLength_le _ _)
  obtain ⟨mp, hmp⟩ : ∃ mp, mp = (5 * day + 2) / 153 := ⟨_, rfl⟩
  have hmp' : 0 ≤ mp ∧ mp ≤ 11 := by split at hhigh <;> omega
  rw [daysFromCivil_eq hvalid.month_pos hvalid.month_le hvalid.day_pos hlength]
  simp only [marchDate, ← hmp]
  by_cases hlate : mp < 10
  · simp only [hlate, if_true]
    rw [if_neg (by omega), if_neg (by omega)]
    omega
  · simp only [hlate, if_false]
    rw [if_pos (by omega), if_pos (by omega), add_sub_cancel_right]
    omega

/-- The year that a day of an era lies in, as it is computed: the days that leap years have
more are taken away first. -/
theorem yearOfEra_eq {century four year day : ℤ} (hcentury : 0 ≤ century ∧ century ≤ 3)
    (hfour : 0 ≤ four ∧ four ≤ 24) (hyear : 0 ≤ year ∧ year ≤ 3) (hday : 0 ≤ day)
    (hday' : day ≤ 364 ∨ day = 365 ∧ year = 3 ∧ (four < 24 ∨ century = 3)) {doe : ℤ}
    (hdoe : doe = 36524 * century + 1461 * four + 365 * year + day) :
  (doe - doe / 1460 + doe / 36524 - doe / 146096) / 365 = 100 * century + 4 * four + year
  := by
  rcases eq_or_lt_of_le (show doe ≤ 146096 by omega) with hlast | hbefore
  · rw [hlast]
    omega
  · have hcenturies : doe / 36524 = century := by omega
    have heras : doe / 146096 = 0 := by omega
    rw [hcenturies, heras]
    -- the days counted off for leap years are one too many at the end of some fours
    rcases lt_or_ge (24 * century + four + 365 * year + day) 1460 with hbelow | habove
    · have hfours : doe / 1460 = 25 * century + four := by omega
      omega
    · have hfours : doe / 1460 = 25 * century + four + 1 := by omega
      omega

/-- `civil_from_days` finds the year and the day in it. -/
theorem civilFromDays_eq (h : InMarchYear year day) :
  civilFromDays (marchDays year + day - 719468) = marchDate year day
  := by
  obtain ⟨hlow, hhigh⟩ := h.le
  obtain ⟨era, century, four, rest, rfl, hcentury, hfour, hrest⟩ :
      ∃ era century four rest : ℤ, year = 400 * era + 100 * century + 4 * four + rest ∧
        (0 ≤ century ∧ century ≤ 3) ∧ (0 ≤ four ∧ four ≤ 24) ∧ (0 ≤ rest ∧ rest ≤ 3) :=
    ⟨year / 400, year % 400 / 100, year % 100 / 4, year % 4, by omega⟩
  have hday' : day ≤ 364 ∨ day = 365 ∧ rest = 3 ∧ (four < 24 ∨ century = 3) := by
    split at hhigh
    · next hleap =>
      unfold Leap at hleap
      omega
    · omega
  obtain ⟨doe, hdoe⟩ : ∃ doe, doe = 36524 * century + 1461 * four + 365 * rest + day := ⟨_, rfl⟩
  have hyoe := yearOfEra_eq hcentury hfour hrest hlow hday' hdoe
  have hdays := marchDays_split era hcentury hfour hrest
  have hz : marchDays (400 * era + 100 * century + 4 * four + rest) + day - 719468 + 719468 =
      146097 * era + doe := by
    omega
  have hera := tdiv_floor (146097 * era + doe) 146097 (by omega)
  norm_num at hera
  have hera' : (146097 * era + doe) / 146097 = era := by omega
  simp only [civilFromDays, hz, hera, hera']
  rw [unsigned_eq (x := 146097 * era + doe - era * 146097) (by omega) (by omega)]
  have hsame : 146097 * era + doe - era * 146097 = doe := by omega
  rw [hsame, unsigned_eq (x := doe - doe / 1460 + doe / 36524 - doe / 146096) (by omega) (by omega),
    hyoe]
  have hdoy : doe - (365 * (100 * century + 4 * four + rest) +
      (100 * century + 4 * four + rest) / 4 - (100 * century + 4 * four + rest) / 100) = day := by
    have hfours : (100 * century + 4 * four + rest) / 4 = 25 * century + four := by omega
    have hcenturies : (100 * century + 4 * four + rest) / 100 = century := by omega
    rw [hfours, hcenturies]
    omega
  rw [hdoy, unsigned_eq (x := day) hlow (by omega), unsigned_eq (x := 5 * day + 2) (by omega)
    (by omega)]
  obtain ⟨mp, hmp⟩ : ∃ mp, mp = (5 * day + 2) / 153 := ⟨_, rfl⟩
  rw [marchDate, ← hmp, unsigned_eq (x := 153 * mp + 2) (by omega) (by omega),
    unsigned_eq (x := day - (153 * mp + 2) / 5 + 1) (by omega) (by omega)]
  have hmonth : unsigned (mp + if mp < 10 then 3 else -9) = if mp < 10 then mp + 3 else mp - 9 := by
    unfold unsigned
    split <;> omega
  rw [hmonth]
  simp only [Date.mk.injEq, and_true]
  split_ifs <;> omega

/-! ### Dates and counts -/

/-- `civil_from_days` gives a date of the calendar. -/
theorem civilFromDays_valid (z : ℤ) :
  (civilFromDays z).Valid
  := by
  obtain ⟨year, day, h, hz⟩ := exists_inMarchYear (z + 719468)
  rw [eq_sub_of_add_eq hz, civilFromDays_eq h]
  apply marchDate_valid h

/-- `days_from_civil` takes the date of a day back to it. -/
theorem daysFromCivil_civilFromDays (z : ℤ) :
  daysFromCivil (civilFromDays z) = z
  := by
  obtain ⟨year, day, h, hz⟩ := exists_inMarchYear (z + 719468)
  rw [eq_sub_of_add_eq hz, civilFromDays_eq h, daysFromCivil_marchDate h]

/-- `civil_from_days` takes the count of a date back to it. -/
theorem civilFromDays_daysFromCivil {date : Date} (hdate : date.Valid) :
  civilFromDays (daysFromCivil date) = date
  := by
  obtain ⟨year, day, h, rfl⟩ := exists_marchDate hdate
  rw [daysFromCivil_marchDate h, civilFromDays_eq h]

/-- The day that follows a date is counted one higher. -/
theorem daysFromCivil_next {date : Date} (hdate : date.Valid) :
  daysFromCivil date.next = daysFromCivil date + 1
  := by
  have hvalid := hdate.next
  rw [daysFromCivil_eq hvalid.month_pos hvalid.month_le hvalid.day_pos
      (hvalid.day_le.trans (monthLength_le _ _)),
    daysFromCivil_eq hdate.month_pos hdate.month_le hdate.day_pos
      (hdate.day_le.trans (monthLength_le _ _))]
  obtain ⟨hmonth, hmonth', hday, hday'⟩ := hdate
  obtain ⟨year, month, day⟩ := date
  simp only at hmonth hmonth' hday hday'
  unfold Date.next
  by_cases hlast : day < monthLength year month
  · simp only [hlast, if_true]
    omega
  · have hday : day = monthLength year month := by omega
    have hmarch := marchDays_succ (year - 1)
    rw [sub_add_cancel] at hmarch
    simp only [hlast, if_false]
    interval_cases month
    all_goals
      norm_num [monthLength] at hday ⊢
    all_goals try omega
    split at hday <;> simp_all <;> omega

/-- The date of the day that follows is the day that follows the date. -/
theorem civilFromDays_succ (z : ℤ) :
  civilFromDays (z + 1) = (civilFromDays z).next
  := by
  have hcount : daysFromCivil (civilFromDays z).next = z + 1 := by
    rw [daysFromCivil_next (civilFromDays_valid z), daysFromCivil_civilFromDays]
  rw [← hcount, civilFromDays_daysFromCivil (civilFromDays_valid z).next]

/-! ### Serials -/

theorem int32_eq {x : ℤ} (h0 : -2147483648 ≤ x) (h1 : x < 2147483648) :
  int32 x = x
  := by
  unfold int32
  omega

/-- A serial in seconds, rounded to the nearest one. -/
def ExcelDateTime.seconds (serial : ExcelDateTime) : ℤ :=
  ⌊serial.value * 86400 + 1 / 2⌋

variable (serial : ExcelDateTime)

theorem ExcelDateTime.abs_seconds_sub :
  |(serial.seconds : ℚ) - serial.value * 86400| ≤ 1 / 2
  := by
  have hlow := floor_le (serial.value * 86400 + 1 / 2)
  have hhigh := lt_floor_add_one (serial.value * 86400 + 1 / 2)
  rw [ExcelDateTime.seconds, abs_le]
  constructor <;> linarith

/-- The seconds of the fraction are those of the serial without its whole days. -/
theorem llround_fraction :
  llround ((serial.value - ⌊serial.value⌋) * 86400) =
    serial.seconds - 86400 * ⌊serial.value⌋
  := by
  have hlow := floor_le serial.value
  rw [llround, if_pos (by linarith), ExcelDateTime.seconds, eq_sub_iff_add_eq,
    ← floor_add_intCast]
  congr 1
  push_cast
  ring

/-- The date of a serial is that of its rounded seconds, and so is the time. -/
theorem excelSerialCivil_eq :
  excelSerialCivil serial =
    { year := int32 (civilFromDays (daysFromCivil serial.epoch + serial.seconds / 86400)).year
      month := (civilFromDays (daysFromCivil serial.epoch + serial.seconds / 86400)).month
      day := (civilFromDays (daysFromCivil serial.epoch + serial.seconds / 86400)).day
      hour := serial.seconds % 86400 / 3600
      minute := serial.seconds % 3600 / 60
      second := serial.seconds % 60 }
  := by
  have hlow := floor_le serial.value
  have hhigh := lt_floor_add_one serial.value
  have hseconds : 0 ≤ serial.seconds - 86400 * ⌊serial.value⌋ ∧
      serial.seconds - 86400 * ⌊serial.value⌋ ≤ 86400 := by
    rw [← llround_fraction, llround, if_pos (by linarith)]
    refine ⟨floor_nonneg.mpr (by linarith), lt_add_one_iff.mp (floor_lt.mpr ?_)⟩
    push_cast
    linarith
  have hdays : (if 86400 ≤ serial.seconds - 86400 * ⌊serial.value⌋ then
      (⌊serial.value⌋ + 1, serial.seconds - 86400 * ⌊serial.value⌋ - 86400)
      else (⌊serial.value⌋, serial.seconds - 86400 * ⌊serial.value⌋)) =
      (serial.seconds / 86400, serial.seconds % 86400) := by
    split
    · simp only [Prod.mk.injEq]
      omega
    · simp only [Prod.mk.injEq]
      omega
  have hvalid := civilFromDays_valid (daysFromCivil serial.epoch + serial.seconds / 86400)
  have hlength := hvalid.day_le.trans (monthLength_le _ _)
  have hmonth := hvalid.month_pos
  have hmonth' := hvalid.month_le
  have hday := hvalid.day_pos
  simp only [excelSerialCivil, llround_fraction, hdays]
  rw [tdiv_eq_ediv_of_nonneg (by omega), tdiv_eq_ediv_of_nonneg (by omega),
    tmod_eq_emod_of_nonneg (by omega), tmod_eq_emod_of_nonneg (by omega),
    tmod_eq_emod_of_nonneg (by omega),
    int32_eq (x := (civilFromDays _).month) (by omega) (by omega),
    int32_eq (x := (civilFromDays _).day) (by omega) (by omega),
    int32_eq (x := serial.seconds % 86400 / 3600 % 24) (by omega) (by omega),
    int32_eq (x := serial.seconds % 86400 / 60 % 60) (by omega) (by omega),
    int32_eq (x := serial.seconds % 86400 % 60) (by omega) (by omega)]
  simp only [CivilDateTime.mk.injEq, true_and]
  omega

theorem ExcelDateTime.epoch_valid :
  serial.epoch.Valid
  := by
  unfold ExcelDateTime.epoch
  split
  · exact ⟨by decide, by decide, by decide, by decide⟩
  · exact ⟨by decide, by decide, by decide, by decide⟩

/-- The date of a number of days since the epoch lies that many days behind it. -/
theorem daysAfter_epoch (days : ℤ) :
  DaysAfter serial.epoch days (civilFromDays (daysFromCivil serial.epoch + days))
  := by
  have h := daysAfter_of_count civilFromDays_valid civilFromDays_succ
    (daysFromCivil serial.epoch) days
  rwa [civilFromDays_daysFromCivil serial.epoch_valid] at h

/-- Day counts below 2^40 and dates of the calendar correspond, each day to the one that
follows; and a serial date is that of its epoch and the days of the serial, rounded to the
nearest second, with the year as the 32 bits of the wire keep it. -/
theorem serialDates_right :
  (∀ z : ℤ, |z| < 2 ^ 40 → (civilFromDays z).Valid ∧ daysFromCivil (civilFromDays z) = z ∧
      civilFromDays (z + 1) = (civilFromDays z).next) ∧
    (∀ date : Date, date.Valid → civilFromDays (daysFromCivil date) = date) ∧
    ∀ serial : ExcelDateTime, |serial.value| < 2 ^ 40 → ∃ (seconds : ℤ) (date : Date),
      |(seconds : ℚ) - serial.value * 86400| ≤ 1 / 2 ∧ date.Valid ∧
      DaysAfter serial.epoch (seconds / 86400) date ∧
      excelSerialCivil serial =
        { year := int32 date.year, month := date.month, day := date.day
          hour := seconds % 86400 / 3600, minute := seconds % 3600 / 60, second := seconds % 60 } ∧
      (-2147483648 ≤ date.year ∧ date.year < 2147483648 →
        (excelSerialCivil serial).year = date.year) ∧
      (0 ≤ (excelSerialCivil serial).hour ∧ (excelSerialCivil serial).hour < 24) ∧
      (0 ≤ (excelSerialCivil serial).minute ∧ (excelSerialCivil serial).minute < 60) ∧
      (0 ≤ (excelSerialCivil serial).second ∧ (excelSerialCivil serial).second < 60)
  := by
  refine ⟨?_, fun date => civilFromDays_daysFromCivil, ?_⟩
  · intro z _
    exact ⟨civilFromDays_valid z, daysFromCivil_civilFromDays z, civilFromDays_succ z⟩
  · intro serial _
    refine ⟨serial.seconds, civilFromDays (daysFromCivil serial.epoch + serial.seconds / 86400),
      serial.abs_seconds_sub, civilFromDays_valid _, daysAfter_epoch serial _,
      excelSerialCivil_eq serial, ?_, ?_, ?_, ?_⟩
    · intro hyear
      rw [excelSerialCivil_eq]
      exact int32_eq hyear.1 hyear.2
    all_goals
      rw [excelSerialCivil_eq]
      simp only
      omega

/-- Noon of the first day of 1900, in the date system of 1900. -/
theorem serialDates_right_noon :
  (civilFromDays 0).Valid ∧ civilFromDays (daysFromCivil ⟨2000, 2, 29⟩) = ⟨2000, 2, 29⟩ ∧
    ∃ (seconds : ℤ) (date : Date), |(seconds : ℚ) - 5 / 2 * 86400| ≤ 1 / 2 ∧
      DaysAfter ⟨1899, 12, 30⟩ (seconds / 86400) date
  := by
  obtain ⟨hdays, hdates, hserials⟩ := serialDates_right
  refine ⟨(hdays 0 (by norm_num)).1, hdates _ ⟨by decide, by decide, by decide, by decide⟩, ?_⟩
  obtain ⟨seconds, date, hnear, -, hafter, -⟩ :=
    hserials ⟨5 / 2, false⟩ (by rw [abs_of_pos] <;> norm_num)
  exact ⟨seconds, date, hnear, hafter⟩

/-- The year of a serial of 10^12 days does not fit the wire. -/
theorem excelSerialCivil_wraps :
  ∃ date : Date, DaysAfter ⟨1899, 12, 30⟩ (10 ^ 12) date ∧ date.Valid ∧
    (excelSerialCivil ⟨10 ^ 12, false⟩).year ≠ date.year
  := by
  refine ⟨_, daysAfter_epoch ⟨10 ^ 12, false⟩ (10 ^ 12), civilFromDays_valid _, ?_⟩
  have hseconds : (⟨10 ^ 12, false⟩ : ExcelDateTime).seconds / 86400 = 10 ^ 12 := by
    have hfloor : (⟨10 ^ 12, false⟩ : ExcelDateTime).seconds = 10 ^ 12 * 86400 := by
      rw [ExcelDateTime.seconds, Int.floor_eq_iff]
      norm_num
    rw [hfloor]
    norm_num
  rw [excelSerialCivil_eq, hseconds]
  decide

end GRParse.Workbook
