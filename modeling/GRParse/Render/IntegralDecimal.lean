import GRParse.Render.ReadBack
import Mathlib.Algebra.Order.Floor.Semifield
import Mathlib.Data.Int.Log
import Mathlib.Data.Nat.Digits.Lemmas
import Mathlib.Data.Rat.Floor
import Mathlib.Tactic.LinearCombination

/-!
# Integral numbers in full

The canonical text of an integral number spells it out however large it is.  Its 53 bits are taken
apart into limbs to the base 10⁹, and the limbs are doubled as often as the exponent says.
-/

namespace GRParse.Render

open Json JsonWriter List Nat

/-! ### The function -/

/-- Finite numbers of 53 bits. -/
def IsDouble (value : ℚ) : Prop :=
  ∃ mantissa exponent : ℤ, |mantissa| < 2 ^ 53 ∧ value = mantissa * 2 ^ exponent

/-- `std::frexp` of a positive number: a fraction from one half on and below one, and the power
of two that it is multiplied by. -/
def frexp (value : ℚ) : ℚ × ℤ :=
  let exponent := Int.log 2 value + 1
  (value / 2 ^ exponent, exponent)

/-- The zero bits at the end of a number are cut off. -/
def trimBits (bits : ℕ) (exponent : ℤ) : ℕ × ℤ :=
  if exponent < 0 then trimBits (bits >>> 1) (exponent + 1) else (bits, exponent)
termination_by (-exponent).toNat
decreasing_by omega

def kBase : ℕ := 1000000000

/-- The limbs of a number, the lowest one first. -/
def limbsOf (bits : ℕ) : List ℕ :=
  bits % kBase :: if bits / kBase = 0 then [] else limbsOf (bits / kBase)
termination_by bits
decreasing_by
  apply Nat.div_lt_self
  · apply Nat.pos_of_ne_zero
    rintro rfl
    exact absurd (Nat.zero_div kBase) ‹_›
  · decide

/-- The limbs are doubled, with a carry into the lowest one. -/
def doubleLimbs (carry : ℕ) : List ℕ → List ℕ
  | [] => if carry = 0 then [] else [carry]
  | limb :: limbs =>
    (2 * limb + carry) % kBase :: doubleLimbs ((2 * limb + carry) / kBase) limbs

/-- The format `%09u`. -/
def paddedDecimal (limb : ℕ) : List UInt8 :=
  List.replicate (9 - (decimal limb).length) 0x30 ++ decimal limb

/-- The limbs are printed, the highest one first. -/
def printLimbs (limbs : List ℕ) : List UInt8 :=
  match limbs.reverse with
  | [] => []
  | highest :: limbs => decimal highest ++ limbs.flatMap paddedDecimal

/-- `canonical_integral_decimal`. -/
def canonicalIntegralDecimal (value : ℚ) : List UInt8 :=
  if value = 0 then [0x30]
  else
    let (fraction, exponent) := frexp |value|
    let (bits, doublings) := trimBits ⌊(2 * ·)^[53] fraction⌋₊ (exponent - 53)
    (if value < 0 then [0x2d] else []) ++
      printLimbs ((doubleLimbs 0)^[doublings.toNat] (limbsOf bits))

/-! ### Bits -/

theorem trimBits_of_nonneg (bits exponent : ℕ) :
  trimBits bits exponent = (bits, (exponent : ℤ))
  := by
  rw [trimBits, if_neg (by omega)]

theorem trimBits_neg (bits exponent : ℕ) :
  trimBits bits (-exponent) = (bits / 2 ^ exponent, 0)
  := by
  induction exponent generalizing bits with
  | zero => simpa using trimBits_of_nonneg bits 0
  | succ exponent ih =>
    have hnext : -((exponent + 1 : ℕ) : ℤ) + 1 = -exponent := by omega
    rw [trimBits, if_pos (by omega), hnext, ih, Nat.shiftRight_succ, Nat.shiftRight_zero,
      Nat.div_div_eq_div_mul, Nat.pow_succ']

theorem iterate_double (count : ℕ) (value : ℚ) :
  (2 * ·)^[count] value = 2 ^ count * value
  := by
  induction count generalizing value with
  | zero => simp
  | succ count ih =>
    rw [Function.iterate_succ_apply, ih]
    ring

/-- The bits of an integral number and the doublings that are left make up the number. -/
theorem trimBits_frexp {value : ℕ} (hpos : 0 < value) (hdouble : IsDouble value) :
  ∃ bits doublings : ℕ, bits * 2 ^ doublings = value ∧
    trimBits ⌊(2 * ·)^[53] (frexp value).1⌋₊ ((frexp value).2 - 53) = (bits, (doublings : ℤ))
  := by
  obtain ⟨mantissa, exponent, hmantissa, hvalue⟩ := hdouble
  have hpos' : (0 : ℚ) < value := Nat.cast_pos.mpr hpos
  have htwo : (2 : ℚ) ≠ 0 := by norm_num
  have hlog : Int.log 2 (value : ℚ) = Nat.log 2 value := Int.log_natCast 2 value
  have hfraction : (2 * ·)^[53] (frexp (value : ℚ)).1 =
      value * 2 ^ (53 - ((Nat.log 2 value : ℤ) + 1)) := by
    rw [iterate_double, frexp, hlog, zpow_sub₀ htwo]
    simp only [zpow_ofNat]
    ring
  have hexponent : (frexp (value : ℚ)).2 - 53 = (Nat.log 2 value : ℤ) + 1 - 53 := by
    rw [frexp, hlog]
  rw [hfraction, hexponent]
  rcases Nat.lt_or_ge (Nat.log 2 value + 1) 54 with hsmall | hlarge
  · -- the number has at most 53 bits
    obtain ⟨gap, hgap⟩ := Nat.exists_eq_add_of_lt hsmall
    refine ⟨value, 0, by simp, ?_⟩
    have hshift : (53 : ℤ) - ((Nat.log 2 value : ℤ) + 1) = gap := by omega
    have hshift' : (Nat.log 2 value : ℤ) + 1 - 53 = -gap := by omega
    rw [hshift, hshift', zpow_natCast]
    have hfloor : ⌊(value : ℚ) * 2 ^ gap⌋₊ = value * 2 ^ gap := by
      rw [← Nat.cast_ofNat, ← Nat.cast_pow, ← Nat.cast_mul, Nat.floor_natCast]
    rw [hfloor, trimBits_neg, Nat.mul_div_cancel _ (Nat.two_pow_pos gap)]
    rfl
  · -- the number has more bits, and those below the first 53 are zero
    obtain ⟨gap, hgap⟩ := Nat.exists_eq_add_of_le hlarge
    have hshift : (53 : ℤ) - ((Nat.log 2 value : ℤ) + 1) = -((gap + 1 : ℕ) : ℤ) := by omega
    have hshift' : (Nat.log 2 value : ℤ) + 1 - 53 = ((gap + 1 : ℕ) : ℤ) := by omega
    have hdvd : 2 ^ (gap + 1) ∣ value := by
      have hlower : (2 : ℚ) ^ (Nat.log 2 value : ℤ) ≤ value := by
        rw [← hlog]
        exact Int.zpow_log_le_self (by decide) hpos'
      have hupper : (value : ℚ) < 2 ^ (53 + exponent) := by
        rw [hvalue, zpow_add₀ htwo]
        have habs : (mantissa : ℚ) < 2 ^ 53 := by
          exact_mod_cast (le_abs_self mantissa).trans_lt hmantissa
        have hpow : (0 : ℚ) < 2 ^ exponent := zpow_pos (by norm_num) _
        simpa using mul_lt_mul_of_pos_right habs hpow
      have hlt := (zpow_lt_zpow_iff_right₀ (by norm_num : (1 : ℚ) < 2)).mp (hlower.trans_lt hupper)
      obtain ⟨power, rfl⟩ : ∃ power : ℕ, exponent = power := ⟨exponent.toNat, by omega⟩
      have hvalue' : (value : ℤ) = mantissa * 2 ^ power := by
        rw [zpow_natCast] at hvalue
        exact_mod_cast hvalue
      have hdvd : ((2 ^ power : ℕ) : ℤ) ∣ (value : ℤ) := by
        rw [hvalue']
        exact_mod_cast Dvd.intro_left _ rfl
      exact (pow_dvd_pow 2 (by omega)).trans (Int.natCast_dvd_natCast.mp hdvd)
    refine ⟨value / 2 ^ (gap + 1), gap + 1, Nat.div_mul_cancel hdvd, ?_⟩
    rw [hshift, hshift', zpow_neg, zpow_natCast, ← div_eq_mul_inv, trimBits_of_nonneg]
    have hfloor : ⌊(value : ℚ) / 2 ^ (gap + 1)⌋₊ = value / 2 ^ (gap + 1) := by
      rw [← Nat.cast_ofNat, ← Nat.cast_pow, Nat.floor_div_eq_div]
    rw [hfloor]

/-! ### Limbs -/

/-- The limbs make up the number, and each is below the base. -/
theorem limbsOf_spec (bits : ℕ) :
  Nat.ofDigits kBase (limbsOf bits) = bits ∧ ∀ limb ∈ limbsOf bits, limb < kBase
  := by
  induction bits using limbsOf.induct with
  | case1 bits ih =>
    rw [limbsOf]
    have hmod : bits % kBase < kBase := mod_lt bits (by decide)
    split
    case isTrue hzero =>
      refine ⟨?_, by simpa using hmod⟩
      rw [ofDigits_singleton, mod_eq_of_lt (lt_of_div_eq_zero (by decide) hzero)]
    case isFalse hrest =>
      obtain ⟨hvalue, hlt⟩ := ih hrest
      refine ⟨?_, forall_mem_cons.mpr ⟨hmod, hlt⟩⟩
      rw [ofDigits_cons, hvalue]
      exact mod_add_div bits kBase

variable {limbs : List ℕ}

/-- Doubling the limbs doubles the number. -/
theorem doubleLimbs_spec {carry : ℕ} (hcarry : carry < 2) (hlimbs : ∀ limb ∈ limbs, limb < kBase) :
  Nat.ofDigits kBase (doubleLimbs carry limbs) = 2 * Nat.ofDigits kBase limbs + carry ∧
    ∀ limb ∈ doubleLimbs carry limbs, limb < kBase
  := by
  induction limbs generalizing carry with
  | nil =>
    rw [doubleLimbs]
    split
    case isTrue hzero =>
      rw [hzero]
      exact ⟨rfl, forall_mem_nil _⟩
    case isFalse =>
      refine ⟨by simp, ?_⟩
      have hbase : 2 < kBase := by decide
      simpa using hcarry.trans hbase
  | cons limb limbs ih =>
    obtain ⟨hlimb, hlimbs⟩ := forall_mem_cons.mp hlimbs
    have hcarry' : (2 * limb + carry) / kBase < 2 := by
      apply Nat.div_lt_of_lt_mul
      omega
    obtain ⟨hvalue, hlt⟩ := ih hcarry' hlimbs
    rw [doubleLimbs]
    refine ⟨?_, forall_mem_cons.mpr ⟨Nat.mod_lt _ (by decide), hlt⟩⟩
    rw [Nat.ofDigits_cons, hvalue, Nat.ofDigits_cons]
    have hsplit := Nat.mod_add_div (2 * limb + carry) kBase
    linear_combination hsplit

theorem iterate_doubleLimbs (hlimbs : ∀ limb ∈ limbs, limb < kBase) (count : ℕ) :
  Nat.ofDigits kBase ((doubleLimbs 0)^[count] limbs) = Nat.ofDigits kBase limbs * 2 ^ count ∧
    ∀ limb ∈ (doubleLimbs 0)^[count] limbs, limb < kBase
  := by
  induction count generalizing limbs with
  | zero => simpa using hlimbs
  | succ count ih =>
    obtain ⟨hvalue, hlt⟩ := doubleLimbs_spec (show 0 < 2 by decide) hlimbs
    obtain ⟨hvalue', hlt'⟩ := ih hlt
    rw [Function.iterate_succ_apply]
    refine ⟨?_, hlt'⟩
    rw [hvalue', hvalue]
    ring

/-- There is a highest limb, and it is not zero. -/
def Leads (limbs : List ℕ) : Prop :=
  ∃ highest, limbs.getLast? = some highest ∧ highest ≠ 0

theorem leads_cons {limb : ℕ} (h : Leads limbs) :
  Leads (limb :: limbs)
  := by
  obtain ⟨highest, hlast, hne⟩ := h
  refine ⟨highest, ?_, hne⟩
  rw [getLast?_cons, hlast]
  rfl

theorem leads_limbsOf {bits : ℕ} (h : bits ≠ 0) :
  Leads (limbsOf bits)
  := by
  induction bits using limbsOf.induct with
  | case1 bits ih =>
    rw [limbsOf]
    split
    case isTrue hzero =>
      refine ⟨bits, ?_, h⟩
      rw [mod_eq_of_lt (lt_of_div_eq_zero (by decide) hzero)]
      rfl
    case isFalse hrest => exact leads_cons (ih hrest hrest)

theorem leads_doubleLimbs {carry : ℕ} (h : Leads limbs) :
  Leads (doubleLimbs carry limbs)
  := by
  induction limbs generalizing carry with
  | nil =>
    obtain ⟨highest, hlast, -⟩ := h
    cases hlast
  | cons limb limbs ih =>
    rw [doubleLimbs]
    cases limbs with
    | cons next limbs =>
      obtain ⟨highest, hlast, hne⟩ := h
      rw [getLast?_cons_cons] at hlast
      exact leads_cons (ih ⟨highest, hlast, hne⟩)
    | nil =>
      obtain ⟨highest, hlast, hne⟩ := h
      have hlimb : limb = highest := Option.some.inj hlast
      rw [doubleLimbs]
      split
      case isTrue hzero =>
        refine ⟨2 * limb + carry, ?_, by omega⟩
        rw [mod_eq_of_lt (lt_of_div_eq_zero (by decide) hzero)]
        rfl
      case isFalse hcarry => exact ⟨_, rfl, hcarry⟩

theorem leads_iterate (h : Leads limbs) (count : ℕ) :
  Leads ((doubleLimbs 0)^[count] limbs)
  := by
  induction count generalizing limbs with
  | zero => exact h
  | succ count ih => exact ih (leads_doubleLimbs h)

/-! ### Printing -/

/-- The digits of a number, the highest one first. -/
theorem decimal_eq_digits {value : ℕ} (h : value ≠ 0) :
  decimal value = (Nat.digits 10 value).reverse.map digitByte
  := by
  induction value using Nat.strong_induction_on with
  | _ value ih =>
    rcases Nat.lt_or_ge value 10 with hsmall | hlarge
    · rw [decimal_small hsmall, Nat.digits_of_lt 10 value h hsmall]
      rfl
    · have hrest : value / 10 ≠ 0 := by omega
      rw [decimal_large hlarge, ih (value / 10) (by omega) hrest,
        Nat.digits_def' (by decide) (by omega : 0 < value), reverse_cons, map_append]
      rfl

theorem length_decimal {value : ℕ} (h : value ≠ 0) :
  (decimal value).length = (Nat.digits 10 value).length
  := by
  rw [decimal_eq_digits h, length_map, length_reverse]

/-- A limb takes nine digits. -/
theorem paddedDecimal_eq_digits {limb : ℕ} (h : limb < kBase) :
  (Nat.digits 10 limb).length ≤ 9 ∧
    paddedDecimal limb =
      ((Nat.digits 10 limb) ++ List.replicate (9 - (Nat.digits 10 limb).length) 0).reverse.map
        digitByte
  := by
  refine ⟨(digits_length_le_iff (by decide) limb).mpr h, ?_⟩
  rw [paddedDecimal, reverse_append, map_append, reverse_replicate,
    map_replicate]
  rcases eq_or_ne limb 0 with rfl | hne
  · rfl
  · rw [length_decimal hne, decimal_eq_digits hne]
    rfl

theorem decimal_append_paddedDecimal {limb rest : ℕ} (hlimb : limb < kBase) (hrest : rest ≠ 0) :
  decimal rest ++ paddedDecimal limb = decimal (limb + kBase * rest)
  := by
  obtain ⟨hlength, hpadded⟩ := paddedDecimal_eq_digits hlimb
  have hpos : 0 < kBase * rest := Nat.mul_pos (by decide) (Nat.pos_of_ne_zero hrest)
  have hdigits := @Nat.digits_append_zeroes_append_digits 10
    (9 - (Nat.digits 10 limb).length) rest limb (by decide) (Nat.pos_of_ne_zero hrest)
  have hbase : 10 ^ ((Nat.digits 10 limb).length + (9 - (Nat.digits 10 limb).length)) = kBase := by
    rw [Nat.add_sub_cancel' hlength]
    rfl
  rw [hbase] at hdigits
  rw [hpadded, decimal_eq_digits hrest, decimal_eq_digits (by omega), ← hdigits,
    ← map_append, ← reverse_append, append_assoc]

theorem printLimbs_cons {limb : ℕ} (h : limbs ≠ []) :
  printLimbs (limb :: limbs) = printLimbs limbs ++ paddedDecimal limb
  := by
  obtain ⟨front, highest, rfl⟩ := (eq_nil_or_concat' limbs).resolve_left h
  simp [printLimbs]

/-- The printed limbs are the digits of the number. -/
theorem printLimbs_eq (hlimbs : ∀ limb ∈ limbs, limb < kBase) (h : Leads limbs) :
  Nat.ofDigits kBase limbs ≠ 0 ∧ printLimbs limbs = decimal (Nat.ofDigits kBase limbs)
  := by
  induction limbs with
  | nil =>
    obtain ⟨highest, hlast, -⟩ := h
    cases hlast
  | cons limb limbs ih =>
    obtain ⟨hlimb, hlimbs⟩ := forall_mem_cons.mp hlimbs
    cases limbs with
    | nil =>
      obtain ⟨highest, hlast, hne⟩ := h
      cases hlast
      rw [ofDigits_singleton]
      exact ⟨hne, by simp [printLimbs]⟩
    | cons next limbs =>
      obtain ⟨highest, hlast, hne⟩ := h
      rw [getLast?_cons_cons] at hlast
      obtain ⟨hvalue, hprint⟩ := ih hlimbs ⟨highest, hlast, hne⟩
      rw [printLimbs_cons (cons_ne_nil _ _), hprint, ofDigits_cons,
        decimal_append_paddedDecimal hlimb hvalue]
      have hpos := mul_pos (show 0 < kBase by decide) (pos_of_ne_zero hvalue)
      exact ⟨by omega, rfl⟩

/-! ### The text of an integral number -/

/-- An integral number is spelled out exactly, without leading zeros. -/
theorem canonicalIntegralDecimal_eq {value : ℤ} (h : IsDouble value) :
  canonicalIntegralDecimal value = printedInt value
  := by
  rcases eq_or_ne value 0 with rfl | hne
  · rw [canonicalIntegralDecimal, if_pos Int.cast_zero, printedInt, if_neg (lt_irrefl 0),
      Int.natAbs_zero, decimal_small (by decide)]
    rfl
  · have hpos : 0 < value.natAbs := Int.natAbs_pos.mpr hne
    have habs : |(value : ℚ)| = (value.natAbs : ℚ) := by
      rw [← Int.cast_abs, Int.abs_eq_natAbs, Int.cast_natCast]
    have hdouble : IsDouble (value.natAbs : ℚ) := by
      obtain ⟨mantissa, exponent, hmantissa, hvalue⟩ := h
      refine ⟨|mantissa|, exponent, by rwa [abs_abs], ?_⟩
      rw [← habs, hvalue, abs_mul, Int.cast_abs, abs_of_pos (zpow_pos (by norm_num) _ :
        (0 : ℚ) < 2 ^ exponent)]
    obtain ⟨bits, doublings, hbits, htrim⟩ := trimBits_frexp hpos hdouble
    have hbits' : bits ≠ 0 := by
      rintro rfl
      omega
    obtain ⟨hvalue, hlimbs⟩ := limbsOf_spec bits
    obtain ⟨hvalue', hlimbs'⟩ := iterate_doubleLimbs hlimbs doublings
    obtain ⟨-, hprint⟩ := printLimbs_eq hlimbs' (leads_iterate (leads_limbsOf hbits') doublings)
    rw [hvalue', hvalue, hbits] at hprint
    rw [canonicalIntegralDecimal, if_neg (by exact_mod_cast hne), habs, printedInt]
    dsimp only
    rw [htrim]
    dsimp only
    rw [Int.toNat_natCast, hprint]
    by_cases hnegative : value < 0
    · rw [if_pos hnegative, if_pos (by exact_mod_cast hnegative)]
      rfl
    · rw [if_neg hnegative, if_neg (by exact_mod_cast hnegative)]
      rfl

end GRParse.Render
