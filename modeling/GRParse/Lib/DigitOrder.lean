import Mathlib.Data.List.Induction
import Mathlib.Data.List.Lex
import Mathlib.Tactic.Ring

/-!
# The order of digit strings

Strings of digits are compared place by place, and a string is before those that it begins.  Of
strings of one length the one of the smaller number is first; of two lengths, the shorter string is
compared with as many leading digits of the longer one.
-/

namespace Digits

open List

/-! ### The order of lists -/

section

variable {α : Type} [LinearOrder α] {s t r r' : List α}

/-- What stands behind parts of one length counts where these are equal. -/
theorem append_lt_append_iff (h : s.length = t.length) :
  s ++ r < t ++ r' ↔ s < t ∨ s = t ∧ r < r'
  := by
  induction s generalizing t with
  | nil =>
    obtain rfl := length_eq_zero_iff.mp h.symm
    simp
  | cons a s ih =>
    obtain ⟨b, t, rfl⟩ := exists_cons_of_length_eq_add_one h.symm
    rw [cons_append, cons_append, cons_lt_cons_iff, cons_lt_cons_iff,
      ih (by simpa using h), cons.injEq]
    tauto

theorem append_lt_append_left_iff : s ++ r < s ++ r' ↔ r < r' := by
  simp [append_lt_append_iff rfl]

end

/-! ### Values -/

section

variable {b : ℕ}

/-- The number that digits write. -/
def value (b : ℕ) (digits : List ℕ) : ℕ :=
  digits.foldl (fun value digit => b * value + digit) 0

theorem value_concat (s : List ℕ) (digit : ℕ) :
  value b (s ++ [digit]) = b * value b s + digit
  := by
  simp [value]

theorem value_append (s t : List ℕ) :
  value b (s ++ t) = value b s * b ^ t.length + value b t
  := by
  induction t using reverseRecOn with
  | nil => simp [value]
  | append_singleton t digit ih =>
    rw [← append_assoc, value_concat, ih, value_concat, length_append,
      length_singleton, pow_succ]
    ring

theorem value_cons (digit : ℕ) (s : List ℕ) :
  value b (digit :: s) = digit * b ^ s.length + value b s
  := by
  have h := @value_append b [digit] s
  have hdigit : value b [digit] = digit := by
    simp [value]
  rwa [singleton_append, hdigit] at h

@[simp]
theorem value_replicate_zero (count : ℕ) :
  value b (List.replicate count 0) = 0
  := by
  induction count with
  | zero => rfl
  | succ count ih => rw [replicate_succ, value_cons, ih, Nat.zero_mul]

theorem value_lt_pow {s : List ℕ} (h : ∀ digit ∈ s, digit < b) :
  value b s < b ^ s.length
  := by
  induction s with
  | nil => exact Nat.one_pos
  | cons digit s ih =>
    obtain ⟨hdigit, hs⟩ := forall_mem_cons.mp h
    rw [value_cons, length_cons, pow_succ]
    calc digit * b ^ s.length + value b s
        < digit * b ^ s.length + b ^ s.length := Nat.add_lt_add_left (ih hs) _
      _ = (digit + 1) * b ^ s.length := by ring
      _ ≤ b * b ^ s.length := Nat.mul_le_mul_right _ hdigit
      _ = b ^ s.length * b := Nat.mul_comm _ _

/-- Of strings of one length the one of the smaller number is first. -/
theorem lt_iff_value_lt {s t : List ℕ} (hs : ∀ digit ∈ s, digit < b) (ht : ∀ digit ∈ t, digit < b)
    (h : s.length = t.length) :
  s < t ↔ value b s < value b t
  := by
  induction s generalizing t with
  | nil =>
    obtain rfl := length_eq_zero_iff.mp h.symm
    simp
  | cons d s ih =>
    obtain ⟨e, t, rfl⟩ := exists_cons_of_length_eq_add_one h.symm
    obtain ⟨-, hs⟩ := forall_mem_cons.mp hs
    obtain ⟨-, ht⟩ := forall_mem_cons.mp ht
    have hlength : s.length = t.length := by simpa using h
    have hslt := value_lt_pow hs
    have htlt := value_lt_pow ht
    rw [cons_lt_cons_iff, ih hs ht hlength, value_cons, value_cons, hlength]
    rw [hlength] at hslt
    rcases Nat.lt_trichotomy d e with hlt | rfl | hgt
    · have hmul := Nat.mul_le_mul_right (b ^ t.length) hlt
      rw [Nat.succ_mul] at hmul
      exact iff_of_true (.inl hlt) (by omega)
    · simp
    · have hmul := Nat.mul_le_mul_right (b ^ t.length) hgt
      rw [Nat.succ_mul] at hmul
      exact iff_of_false (by omega) (by omega)

theorem eq_iff_value_eq {s t : List ℕ} (hs : ∀ digit ∈ s, digit < b) (ht : ∀ digit ∈ t, digit < b)
    (h : s.length = t.length) :
  s = t ↔ value b s = value b t
  := by
  refine ⟨congrArg _, fun heq => ?_⟩
  apply le_antisymm
  · rw [← not_lt, lt_iff_value_lt ht hs h.symm]
    exact heq.le.not_gt
  · rw [← not_lt, lt_iff_value_lt hs ht h]
    exact heq.ge.not_gt

/-- The leading digits of a string. -/
theorem value_take {t : List ℕ} (ht : ∀ digit ∈ t, digit < b) (hb : 0 < b) (count : ℕ) :
  value b (t.take count) = value b t / b ^ (t.length - count)
  := by
  have hdrop : value b (t.drop count) < b ^ (t.length - count) := by
    rw [← length_drop]
    exact value_lt_pow fun digit hdigit => ht digit (mem_of_mem_drop hdigit)
  have hsplit := @value_append b (t.take count) (t.drop count)
  rw [take_append_drop, length_drop] at hsplit
  rw [hsplit, Nat.mul_comm, Nat.mul_add_div (Nat.pow_pos hb), Nat.div_eq_of_lt hdrop, Nat.add_zero]

/-- A string and as many leading digits of another one. -/
theorem lt_take_iff {s t : List ℕ} (hs : ∀ digit ∈ s, digit < b) (ht : ∀ digit ∈ t, digit < b)
    (hb : 0 < b) (h : s.length ≤ t.length) :
  (s < t.take s.length ↔ value b s < value b t / b ^ (t.length - s.length)) ∧
    (s = t.take s.length ↔ value b s = value b t / b ^ (t.length - s.length)) ∧
    (t.take s.length < s ↔ value b t / b ^ (t.length - s.length) < value b s)
  := by
  have htake : ∀ digit ∈ t.take s.length, digit < b :=
    fun digit hdigit => ht digit (mem_of_mem_take hdigit)
  have hlength : s.length = (t.take s.length).length := by
    rw [length_take, Nat.min_eq_left h]
  rw [lt_iff_value_lt hs htake hlength, eq_iff_value_eq hs htake hlength,
    lt_iff_value_lt htake hs hlength.symm, value_take ht hb]
  exact ⟨Iff.rfl, Iff.rfl, Iff.rfl⟩

end

/-! ### Symbols -/

/-- Symbols in the order of the digits that they stand for. -/
theorem map_lt_map_iff {α β : Type} [LinearOrder α] [LinearOrder β] {f : α → β} (hf : StrictMono f)
    {s t : List α} :
  s.map f < t.map f ↔ s < t
  := by
  induction s generalizing t with
  | nil => cases t <;> simp
  | cons a s ih =>
    cases t with
    | nil => simp
    | cons b t =>
      rw [map_cons, map_cons, cons_lt_cons_iff, cons_lt_cons_iff, ih,
        hf.lt_iff_lt, hf.injective.eq_iff]

end Digits

/-!
## Digits without a zero

With the digits from 1 to the base every number is written in one way, zero by no digit at all.
-/

namespace Digits

/-- The digits from 1 to `b` of a number. -/
def numeral (b n : ℕ) : List ℕ :=
  if n = 0 then [] else numeral b ((n - 1) / b) ++ [(n - 1) % b + 1]
termination_by n
decreasing_by
  have hle := Nat.div_le_self (n - 1) b
  omega

theorem numeral_zero (b : ℕ) :
  numeral b 0 = []
  := by
  rw [numeral, if_pos rfl]

theorem numeral_succ (b n : ℕ) :
  numeral b (n + 1) = numeral b (n / b) ++ [n % b + 1]
  := by
  rw [numeral, if_neg n.succ_ne_zero, Nat.add_sub_cancel]

theorem numeral_ne_nil (b : ℕ) {n : ℕ} (h : n ≠ 0) :
  numeral b n ≠ []
  := by
  obtain ⟨n, rfl⟩ := Nat.exists_eq_succ_of_ne_zero h
  rw [numeral_succ]
  simp

variable {b : ℕ}

theorem mem_numeral (hb : 0 < b) {n digit : ℕ} (h : digit ∈ numeral b n) :
  0 < digit ∧ digit ≤ b
  := by
  induction n using Nat.strong_induction_on with
  | _ n ih =>
    cases n with
    | zero =>
      rw [numeral_zero] at h
      cases h
    | succ n =>
      rw [numeral_succ, List.mem_append, List.mem_singleton] at h
      rcases h with h | rfl
      · exact ih _ (Nat.lt_succ_of_le (Nat.div_le_self n b)) h
      · exact ⟨Nat.succ_pos _, Nat.mod_lt n hb⟩

theorem value_numeral (b n : ℕ) :
  value b (numeral b n) = n
  := by
  induction n using Nat.strong_induction_on with
  | _ n ih =>
    cases n with
    | zero =>
      rw [numeral_zero]
      rfl
    | succ n =>
      rw [numeral_succ, value_concat, ih _ (Nat.lt_succ_of_le (Nat.div_le_self n b)),
        ← Nat.add_assoc, Nat.div_add_mod]

theorem numeral_value {digits : List ℕ} (h : ∀ digit ∈ digits, 0 < digit ∧ digit ≤ b) :
  numeral b (value b digits) = digits
  := by
  induction digits using List.reverseRecOn with
  | nil => exact numeral_zero b
  | append_singleton digits digit ih =>
    obtain ⟨hdigits, hdigit⟩ := List.forall_mem_append.mp h
    obtain ⟨hpos, hle⟩ := hdigit digit List.mem_cons_self
    obtain ⟨digit, rfl⟩ := Nat.exists_eq_succ_of_ne_zero (Nat.pos_iff_ne_zero.mp hpos)
    have hdiv : (b * value b digits + digit) / b = value b digits := by
      rw [Nat.mul_add_div (Nat.lt_of_lt_of_le hpos hle), Nat.div_eq_of_lt hle, Nat.add_zero]
    have hmod : (b * value b digits + digit) % b = digit := by
      rw [Nat.mul_add_mod, Nat.mod_eq_of_lt hle]
    rw [value_concat, Nat.succ_eq_add_one, ← Nat.add_assoc, numeral_succ, hdiv, hmod, ih hdigits]

end Digits
