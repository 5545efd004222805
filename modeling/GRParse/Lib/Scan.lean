import Mathlib.Data.List.Basic

/-!
# Scanning a range

Loops that move an index forward, or the end of a range backward, over elements that satisfy a
predicate, and what such a loop knows when it stops.
-/

namespace Scan

variable {α : Type} [Inhabited α] (p : α → Bool) (xs : List α)

/-- The element at an index. -/
def itemAt (index : ℕ) : α :=
  xs.getD index default

/-- The first index from the given one on, before `stop`, whose element does not satisfy the
predicate, or `stop`. -/
def skipWhile (index stop : ℕ) : ℕ :=
  if index < stop then
    if p (itemAt xs index) then skipWhile (index + 1) stop else index
  else index
termination_by stop - index

/-- The end of the range without the elements at its end that satisfy the predicate. -/
def dropWhileBack (start : ℕ) : ℕ → ℕ
  | 0 => 0
  | stop + 1 =>
    if start < stop + 1 && p (itemAt xs stop) then dropWhileBack start stop else stop + 1

variable {p xs}

theorem le_skipWhile (index stop : ℕ) :
  index ≤ skipWhile p xs index stop
  := by
  fun_induction skipWhile p xs index stop with
  | case1 index _ _ ih => exact Nat.le_trans (Nat.le_succ index) ih
  | case2 => exact Nat.le_refl _
  | case3 => exact Nat.le_refl _

theorem skipWhile_le {index stop : ℕ} (h : index ≤ stop) :
  skipWhile p xs index stop ≤ stop
  := by
  fun_induction skipWhile p xs index stop with
  | case1 index hlt _ ih => exact ih hlt
  | case2 => exact h
  | case3 => exact h

/-- What is skipped satisfies the predicate. -/
theorem of_lt_skipWhile {index stop k : ℕ} (hk : index ≤ k) (h : k < skipWhile p xs index stop) :
  p (itemAt xs k) = true
  := by
  fun_induction skipWhile p xs index stop with
  | case1 index _ hindex ih =>
    obtain rfl | hlt := Nat.eq_or_lt_of_le hk
    · exact hindex
    · exact ih hlt h
  | case2 => omega
  | case3 => omega

/-- Where the loop stops before the end the predicate fails. -/
theorem skipWhile_stops {index stop : ℕ} (h : skipWhile p xs index stop < stop) :
  p (itemAt xs (skipWhile p xs index stop)) = false
  := by
  fun_induction skipWhile p xs index stop with
  | case1 _ _ _ ih => exact ih h
  | case2 _ _ hindex => simpa using hindex
  | case3 => omega

/-- A loop that starts where the predicate holds moves on. -/
theorem lt_skipWhile {index stop : ℕ} (hlt : index < stop) (h : p (itemAt xs index) = true) :
  index < skipWhile p xs index stop
  := by
  rw [skipWhile, if_pos hlt, if_pos h]
  exact le_skipWhile (index + 1) stop

theorem dropWhileBack_le (start stop : ℕ) :
  dropWhileBack p xs start stop ≤ stop
  := by
  induction stop with
  | zero => exact Nat.le_refl _
  | succ stop ih =>
    rw [dropWhileBack]
    split
    · exact Nat.le_trans ih (Nat.le_succ stop)
    · exact Nat.le_refl _

theorem le_dropWhileBack {start stop : ℕ} (h : start ≤ stop) :
  start ≤ dropWhileBack p xs start stop
  := by
  induction stop with
  | zero => exact h
  | succ stop ih =>
    rw [dropWhileBack]
    split
    next hback =>
      apply ih
      simp only [Bool.and_eq_true, decide_eq_true_eq] at hback
      omega
    next => exact h

/-- What is dropped satisfies the predicate. -/
theorem of_dropWhileBack_le {start stop k : ℕ} (hk : k < stop)
    (h : dropWhileBack p xs start stop ≤ k) :
  p (itemAt xs k) = true
  := by
  induction stop with
  | zero => omega
  | succ stop ih =>
    rw [dropWhileBack] at h
    split at h
    next hback =>
      obtain rfl | hlt := Nat.eq_or_lt_of_le (Nat.le_of_lt_succ hk)
      · simp only [Bool.and_eq_true] at hback
        exact hback.2
      · exact ih hlt h
    next => omega

end Scan
