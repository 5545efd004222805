import GRParse.Lib.DigitOrder
import GRParse.Targets.Bundle
import Mathlib.Data.Nat.Log

/-!
# The order of numbered files

Numbers are written in four places at least, and their files are sorted by their names.  Where that
is the order of the numbers is said by `PaddedInOrder`.  It is below ten thousand; a longer number
is put before a shorter one that is more than as many leading digits of it.
-/

namespace GRParse.Bundles

open Digits Render JsonWriter List

/-! ### Decimal digits -/

/-- The digits of a number. -/
def digitsOf (number : ℕ) : List ℕ :=
  (decimal number).map fun digit => digit.toNat - 0x30

/-- A byte as it is compared. -/
def key (text : List UInt8) : List ℕ :=
  text.map UInt8.toNat

theorem key_append (text other : List UInt8) :
  key (text ++ other) = key text ++ key other
  := map_append

variable (number : ℕ)

theorem key_decimal :
  key (decimal number) = (digitsOf number).map (0x30 + ·)
  := by
  rw [key, digitsOf, map_map]
  apply map_congr_left
  intro digit hdigit
  have hall := all_eq_true.mp (decimal_spec number).1 digit hdigit
  simp only [Json.isDigit, Bool.and_eq_true, decide_eq_true_eq] at hall
  have hlow : 0x30 ≤ digit.toNat := hall.1
  simp only [Function.comp_apply]
  omega

theorem digitsOf_lt :
  ∀ digit ∈ digitsOf number, digit < 10
  := by
  intro digit hdigit
  obtain ⟨byte, hbyte, rfl⟩ := mem_map.mp hdigit
  have hall := all_eq_true.mp (decimal_spec number).1 byte hbyte
  simp only [Json.isDigit, Bool.and_eq_true, decide_eq_true_eq] at hall
  have hhigh : byte.toNat ≤ 0x39 := hall.2
  omega

theorem value_digitsOf :
  value 10 (digitsOf number) = number
  := by
  have h := (decimal_spec number).2.1
  rwa [Json.digitsValue, ← foldl_map
    (f := fun (digit : UInt8) => digit.toNat - 0x30) (g := fun value digit => 10 * value + digit)]
    at h

/-- The places in which a number is written. -/
def places (number : ℕ) : ℕ :=
  Nat.log 10 number + 1

theorem length_digitsOf :
  (digitsOf number).length = places number
  := by
  rw [digitsOf, length_map, places]
  induction number using Nat.strong_induction_on with
  | _ number ih =>
    rcases Nat.lt_or_ge number 10 with h | h
    · rw [decimal_small h, Nat.log_of_lt h]
      rfl
    · rw [decimal_large h, length_append, ih (number / 10) (by omega),
        Nat.log_of_one_lt_of_le (by decide) h]
      rfl

/-- The digits of a number in at least four places. -/
def paddedDigits (number : ℕ) : List ℕ :=
  List.replicate (4 - (digitsOf number).length) 0 ++ digitsOf number

theorem paddedDigits_lt :
  ∀ digit ∈ paddedDigits number, digit < 10
  := by
  intro digit hdigit
  rcases mem_append.mp hdigit with hzero | hdigit
  · rw [eq_of_mem_replicate hzero]
    decide
  · exact digitsOf_lt number digit hdigit

theorem value_paddedDigits :
  value 10 (paddedDigits number) = number
  := by
  rw [paddedDigits, value_append, value_replicate_zero, value_digitsOf, Nat.zero_mul, Nat.zero_add]

theorem places_mono {a b : ℕ} (h : a ≤ b) :
  places a ≤ places b
  := Nat.succ_le_succ (Nat.log_mono_right h)

theorem length_paddedDigits :
  (paddedDigits number).length = max 4 (places number)
  := by
  rw [paddedDigits, length_append, length_replicate, length_digitsOf]
  omega

theorem length_decimal :
  (decimal number).length = places number
  := by
  rw [← length_digitsOf, digitsOf, length_map]

/-! ### Padded numbers -/

/-- A number that is not negative. -/
theorem key_padded_natCast :
  key (padded number) = (paddedDigits number).map (0x30 + ·)
  := by
  have hprinted : printedInt number = decimal number := by
    rw [printedInt, if_neg (by omega), Int.natAbs_natCast]
  rw [padded, hprinted, paddedDigits, map_append, map_replicate, ← key_decimal,
    digitsOf, length_map]
  split
  case isTrue =>
    rw [key_append, key, map_replicate]
    rfl
  case isFalse hlong =>
    rw [Nat.sub_eq_zero_of_le (Nat.le_of_not_lt hlong)]
    rfl

/-- A negative number: the zeros are in front of its sign. -/
theorem key_padded_neg {number : ℕ} (h : 0 < number) :
  key (padded (-number)) =
    List.replicate (3 - places number) 0x30 ++ 0x2d :: (digitsOf number).map (0x30 + ·)
  := by
  have hprinted : printedInt (-number) = 0x2d :: decimal number := by
    rw [printedInt, if_pos (by omega), Int.natAbs_neg, Int.natAbs_natCast]
  have hsign : key (0x2d :: decimal number) = 0x2d :: (digitsOf number).map (0x30 + ·) := by
    rw [← key_decimal]
    rfl
  have hlength : (0x2d :: decimal number).length = places number + 1 := by
    rw [length_cons, length_decimal]
  rw [padded, hprinted]
  simp only [hlength]
  split
  case isTrue =>
    have hzeros : 4 - (places number + 1) = 3 - places number := by omega
    rw [key_append, hsign, key, map_replicate, hzeros]
    rfl
  case isFalse hlong =>
    rw [hsign, Nat.sub_eq_zero_of_le (by omega)]
    rfl

theorem strictMono_symbol :
  StrictMono fun digit : ℕ => 0x30 + digit
  := fun _ _ h => Nat.add_lt_add_left h _

/-- Numbers that are not negative, with what is behind them. -/
theorem natCast_lt_iff {a b : ℕ} (h : a < b) (x y : List ℕ) :
  (paddedDigits a).map (0x30 + ·) ++ 0x2e :: x < (paddedDigits b).map (0x30 + ·) ++ 0x2e :: y ↔
    a ≤ b / 10 ^ (max 4 (places b) - max 4 (places a))
  := by
  have hlength : (paddedDigits a).length ≤ (paddedDigits b).length := by
    have := places_mono h.le
    rw [length_paddedDigits, length_paddedDigits]
    omega
  obtain ⟨hlt, heq, -⟩ :=
    lt_take_iff (paddedDigits_lt a) (paddedDigits_lt b) (by decide) hlength
  rw [value_paddedDigits, value_paddedDigits, length_paddedDigits b, length_paddedDigits a]
    at hlt heq
  rw [← take_append_drop (max 4 (places a)) (paddedDigits b), map_append,
    append_assoc, append_lt_append_iff
      (by
        rw [length_map, length_map, length_take]
        have := length_paddedDigits a
        omega),
    map_lt_map_iff strictMono_symbol, hlt,
    (map_injective_iff.mpr strictMono_symbol.injective).eq_iff, heq, le_iff_lt_or_eq]
  refine or_congr_right (and_iff_left_of_imp fun hsame => ?_)
  cases hdrop : (paddedDigits b).drop (max 4 (places a)) with
  | nil =>
    have hdone := drop_eq_nil_iff.mp hdrop
    rw [length_paddedDigits] at hdone
    rw [Nat.sub_eq_zero_of_le hdone, pow_zero, Nat.div_one] at hsame
    omega
  | cons digit rest =>
    rw [map_cons, cons_append, cons_lt_cons_iff]
    omega

/-- A negative number is before one that is not. -/
theorem neg_lt_natCast {a : ℕ} (ha : 0 < a) (b : ℕ) (x y : List ℕ) :
  key (padded (-a)) ++ x < (paddedDigits b).map (0x30 + ·) ++ y
  := by
  have hplaces : 0 < places a := Nat.succ_pos _
  have hzeros : ∀ digit ∈ replicate (3 - places a) 0, digit < 10 := by
    intro digit hdigit
    rw [eq_of_mem_replicate hdigit]
    decide
  have hlong : (replicate (3 - places a) 0).length ≤ (paddedDigits b).length := by
    rw [length_paddedDigits, length_replicate]
    omega
  obtain ⟨hlt, heq, -⟩ := lt_take_iff hzeros (paddedDigits_lt b) (by decide) hlong
  rw [value_replicate_zero, length_replicate] at hlt heq
  have hsymbols : replicate (3 - places a) 0x30 =
      (replicate (3 - places a) 0).map (0x30 + ·) := by
    rw [map_replicate]
  rw [key_padded_neg ha, hsymbols, ← take_append_drop (3 - places a) (paddedDigits b),
    map_append, append_assoc, append_assoc, append_lt_append_iff
      (by
        rw [length_replicate] at hlong
        rw [length_map, length_map, length_take, length_replicate,
          Nat.min_eq_left hlong]),
    map_lt_map_iff strictMono_symbol, hlt,
    (map_injective_iff.mpr strictMono_symbol.injective).eq_iff, heq]
  refine (Nat.eq_zero_or_pos _).symm.imp id fun hzero => ⟨hzero.symm, ?_⟩
  cases hdrop : (paddedDigits b).drop (3 - places a) with
  | nil =>
    have hdone := drop_eq_nil_iff.mp hdrop
    rw [length_paddedDigits] at hdone
    omega
  | cons digit rest =>
    rw [map_cons, cons_append, cons_append, cons_lt_cons_iff]
    omega

/-- Negative numbers, with what is behind them. -/
theorem neg_lt_neg_iff {a b : ℕ} (hb : 0 < b) (h : b < a) (x y : List ℕ) :
  key (padded (-a)) ++ 0x2e :: x < key (padded (-b)) ++ 0x2e :: y ↔
    places b < places a ∧ places b < 3 ∨ a / 10 ^ (places a - places b) < b
  := by
  have hmono := places_mono h.le
  rw [key_padded_neg (hb.trans h), key_padded_neg hb]
  by_cases hshort : places b < places a ∧ places b < 3
  · have hzeros : replicate (3 - places b) 0x30 = replicate (3 - places a) 0x30 ++
        0x30 :: replicate (3 - places b - (3 - places a) - 1) 0x30 := by
      rw [← replicate_succ, replicate_append_replicate]
      congr 1
      omega
    refine iff_of_true ?_ (.inl hshort)
    rw [hzeros, append_assoc, append_assoc, append_assoc,
      append_lt_append_left_iff, cons_append, cons_append, cons_lt_cons_iff]
    omega
  · have hzeros : 3 - places a = 3 - places b := by omega
    have hlength : (digitsOf b).length ≤ (digitsOf a).length := by
      rw [length_digitsOf, length_digitsOf]
      exact hmono
    obtain ⟨-, heq, hlt⟩ := lt_take_iff (digitsOf_lt b) (digitsOf_lt a) (by decide) hlength
    rw [value_digitsOf, value_digitsOf, length_digitsOf, length_digitsOf] at hlt heq
    rw [hzeros, append_assoc, append_assoc, append_lt_append_left_iff, cons_append,
      cons_append, cons_lt_cons_iff,
      ← take_append_drop (places b) (digitsOf a), map_append, append_assoc,
      append_lt_append_iff
        (by
          rw [length_map, length_map, length_take, length_digitsOf, length_digitsOf,
            Nat.min_eq_left hmono]),
      map_lt_map_iff strictMono_symbol, hlt,
      (map_injective_iff.mpr strictMono_symbol.injective).eq_iff]
    have hnone : ¬ ((digitsOf a).take (places b) = digitsOf b ∧
        ((digitsOf a).drop (places b)).map (0x30 + ·) ++ 0x2e :: x < 0x2e :: y) := by
      rintro ⟨hsame, hbehind⟩
      cases hdrop : (digitsOf a).drop (places b) with
      | nil =>
        have hdone := drop_eq_nil_iff.mp hdrop
        rw [length_digitsOf] at hdone
        have hvalue := heq.mp hsame.symm
        rw [Nat.sub_eq_zero_of_le hdone, pow_zero, Nat.div_one] at hvalue
        omega
      | cons digit rest =>
        rw [hdrop, map_cons, cons_append, cons_lt_cons_iff] at hbehind
        omega
    rw [or_iff_right (lt_irrefl _), and_iff_right rfl, or_iff_left hnone, or_iff_right hshort]

/-! ### Names -/

/-- Numbers whose files are in the order of the numbers: one that is not negative is at most as many
leading digits of the other one, of which there are four at least; negative ones have fewer places,
and zeros in front, or leading digits that are less. -/
def PaddedInOrder (a b : ℤ) : Prop :=
  0 ≤ a ∧ a.natAbs ≤ b.natAbs / 10 ^ (max 4 (places b.natAbs) - max 4 (places a.natAbs)) ∨
  a < 0 ∧ 0 ≤ b ∨
  b < 0 ∧ (places b.natAbs < places a.natAbs ∧ places b.natAbs < 3 ∨
    a.natAbs / 10 ^ (places a.natAbs - places b.natAbs) < b.natAbs)

/-- Which of two numbers has its file first. -/
theorem padded_lt_iff {a b : ℤ} (h : a < b) (x y : List ℕ) :
  key (padded a) ++ 0x2e :: x < key (padded b) ++ 0x2e :: y ↔ PaddedInOrder a b
  := by
  rw [PaddedInOrder]
  rcases lt_or_ge a 0 with ha | ha
  · obtain ⟨m, rfl⟩ : ∃ m : ℕ, a = -m := ⟨a.natAbs, by omega⟩
    rcases lt_or_ge b 0 with hb | hb
    · obtain ⟨n, rfl⟩ : ∃ n : ℕ, b = -n := ⟨b.natAbs, by omega⟩
      rw [neg_lt_neg_iff (by omega) (by omega), Int.natAbs_neg, Int.natAbs_neg, Int.natAbs_natCast,
        Int.natAbs_natCast]
      constructor
      · exact fun horder => .inr (.inr ⟨hb, horder⟩)
      · rintro (⟨hpos, -⟩ | ⟨-, hpos⟩ | ⟨-, horder⟩)
        · omega
        · omega
        · exact horder
    · obtain ⟨n, rfl⟩ := Int.eq_ofNat_of_zero_le hb
      rw [key_padded_natCast]
      exact iff_of_true (neg_lt_natCast (by omega) n _ _) (.inr (.inl ⟨ha, hb⟩))
  · obtain ⟨m, rfl⟩ := Int.eq_ofNat_of_zero_le ha
    obtain ⟨n, rfl⟩ := Int.eq_ofNat_of_zero_le (ha.trans h.le)
    rw [key_padded_natCast, key_padded_natCast, natCast_lt_iff (by omega), Int.natAbs_natCast,
      Int.natAbs_natCast, and_iff_right ha, or_iff_left]
    omega

theorem numbered_lt_iff (directory stem : List UInt8) {a b : ℤ} (h : a < b)
    (extension extension' : List UInt8) :
  key (numbered directory stem a extension) < key (numbered directory stem b extension') ↔
    PaddedInOrder a b
  := by
  rw [← padded_lt_iff h (key extension) (key extension')]
  simp only [numbered, key_append, append_assoc, append_lt_append_left_iff]
  rfl

end GRParse.Bundles
