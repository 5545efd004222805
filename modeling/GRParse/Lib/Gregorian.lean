import Mathlib.Tactic.IntervalCases

/-!
# The proleptic Gregorian calendar

Dates of the calendar carried on in both directions, with a year zero; the day that follows
a date; and what it is for one date to lie a number of days behind another.
-/

namespace Gregorian

/-- A date as it is written. -/
structure Date where
  year : ℤ
  month : ℤ
  day : ℤ
  deriving DecidableEq, Repr

/-- A year with a day more. -/
def Leap (year : ℤ) : Prop :=
  year % 4 = 0 ∧ (year % 100 ≠ 0 ∨ year % 400 = 0)

instance (year : ℤ) : Decidable (Leap year) :=
  inferInstanceAs (Decidable (_ ∧ _))

/-- How many days a month has. -/
def monthLength (year month : ℤ) : ℤ :=
  if month = 2 then if Leap year then 29 else 28
  else if month = 4 ∨ month = 6 ∨ month = 9 ∨ month = 11 then 30
  else 31

/-- A date that is in the calendar. -/
structure Date.Valid (date : Date) : Prop where
  month_pos : 1 ≤ date.month
  month_le : date.month ≤ 12
  day_pos : 1 ≤ date.day
  day_le : date.day ≤ monthLength date.year date.month

/-- The day that follows. -/
def Date.next (date : Date) : Date :=
  if date.day < monthLength date.year date.month then { date with day := date.day + 1 }
  else if date.month < 12 then { date with month := date.month + 1, day := 1 }
  else { year := date.year + 1, month := 1, day := 1 }

/-- A date of the calendar lies so many days behind another, or before it when the number is
negative. -/
inductive DaysAfter (start : Date) : ℤ → Date → Prop
  | start : DaysAfter start 0 start
  | next {days : ℤ} {date : Date} : DaysAfter start days date → DaysAfter start (days + 1) date.next
  | back {days : ℤ} {date : Date} : date.Valid → DaysAfter start days date.next →
    DaysAfter start (days - 1) date

theorem monthLength_pos (year month : ℤ) :
  28 ≤ monthLength year month
  := by
  unfold monthLength
  split_ifs <;> omega

theorem monthLength_le (year month : ℤ) :
  monthLength year month ≤ 31
  := by
  unfold monthLength
  split_ifs <;> omega

/-- The day that follows a date of the calendar is in the calendar. -/
theorem Date.Valid.next {date : Date} (h : date.Valid) :
  date.next.Valid
  := by
  obtain ⟨hmonth, hmonth', hday, hday'⟩ := h
  unfold Date.next
  split
  · exact ⟨hmonth, hmonth', by simp only; omega, by simp only; omega⟩
  · have := monthLength_pos date.year (date.month + 1)
    have := monthLength_pos (date.year + 1) 1
    split
    · exact ⟨by simp only; omega, by simp only; omega, by simp, by simp only; omega⟩
    · exact ⟨by simp, by simp, by simp, by simp only; omega⟩

/-- A count of days that goes up by one with every day tells how far apart two dates are. -/
theorem daysAfter_of_count {date : ℤ → Date} (hvalid : ∀ z, (date z).Valid)
    (hnext : ∀ z, date (z + 1) = (date z).next) (z days : ℤ) :
  DaysAfter (date z) days (date (z + days))
  := by
  induction days using Int.induction_on with
  | zero =>
    rw [add_zero]
    exact .start
  | succ n ih =>
    rw [← add_assoc, hnext]
    exact ih.next
  | pred n ih =>
    apply DaysAfter.back (hvalid _)
    rw [← hnext, add_assoc, sub_add_cancel]
    exact ih

end Gregorian
