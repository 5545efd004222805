import GRParse.Document.References
import GRParse.Lib.Traverse
import Mathlib.Data.List.TakeWhile

/-!
# References of the load normalization

The normalizations of a loaded document read the arena and the index out of a reference with a
parser of their own, and write renumbered references.  A computation on an `int` that leaves its
range has no result, nor has an access outside an arena: each is a fault here.
-/

namespace GRParse.LoadNorm

open Traverse List

/-- What the computation does not survive. -/
inductive Fault where
  | overflow
  | outOfRange
  deriving DecidableEq

/-- A computation that may fault. -/
abbrev Run := Except Fault

/-- The result of an operation on an `int`. -/
def int (value : ℤ) : Run ℤ :=
  match asInt value with
  | some value => .ok value
  | none => .error .overflow

theorem int_eq_ok {value : ℤ} (low : -intMax - 1 ≤ value) (high : value ≤ intMax) :
  int value = .ok value
  := by
  rw [int, asInt, if_pos ⟨low, high⟩]

theorem int_eq_error {value : ℤ} (h : intMax < value) :
  int value = .error .overflow
  := by
  rw [int, asInt, if_neg fun hand => absurd hand.2 (not_le.mpr h)]

theorem eq_of_int {value result : ℤ} (h : int value = .ok result) : result = value := by
  unfold int asInt at h
  by_cases hrange : -intMax - 1 ≤ value ∧ value ≤ intMax
  · rw [if_pos hrange] at h
    cases h
    rfl
  · rw [if_neg hrange] at h
    cases h

/-! ### Reading -/

/-- A three-part reference; the arena is empty, and the index negative, for anything else. -/
structure RefParts where
  arena : String := ""
  index : ℤ := -1
  deriving DecidableEq

/-- The loop over the index text: it stops at a character that is no digit. -/
def readIndex (index : ℤ) : List Char → Run (Option ℤ)
  | [] => .ok (some index)
  | c :: text =>
    if c.isDigit then do
      let scaled ← int (index * 10)
      let index ← int (scaled + (c.toNat - '0'.toNat : ℕ))
      readIndex index text
    else .ok none

/-- The arena and the index text of a reference that has both. -/
def splitRef (ref : String) : Option (String × List Char) :=
  match ref.toList with
  | '#' :: '/' :: rest =>
    match rest.dropWhile (· ≠ '/') with
    | _ :: c :: text => some (String.ofList (rest.takeWhile (· ≠ '/')), c :: text)
    | _ => none
  | _ => none

/-- `parse_ref_parts`. -/
def parseRefParts (ref : String) : Run RefParts :=
  match splitRef ref with
  | none => .ok {}
  | some (arena, text) => do
    match ← readIndex 0 text with
    | none => .ok {}
    | some index => .ok ⟨arena, index⟩

/-- The digits an index text begins with. -/
def leadingDigits (text : List Char) : List Char :=
  text.takeWhile Char.isDigit

/-- The number that some digits spell. -/
def spelled (digits : List Char) : ℕ :=
  Nat.ofDigitChars 10 digits 0

/-- The digits that the index text of a reference begins with spell an `int`. -/
def Bounded (ref : String) : Prop :=
  ∀ arena text, splitRef ref = some (arena, text) → (spelled (leadingDigits text) : ℤ) ≤ intMax

theorem le_ofDigitChars (digits : List Char) (index : ℕ) :
  index ≤ Nat.ofDigitChars 10 digits index
  := by
  induction digits generalizing index with
  | nil => exact le_rfl
  | cons c digits ih =>
    rw [Nat.ofDigitChars_cons]
    exact le_trans (by omega) (ih _)

/-- What the loop over the index text makes of it: a fault once the digits spell too much. -/
theorem readIndex_eq (index : ℕ) (h : (index : ℤ) ≤ intMax) (text : List Char) :
  readIndex index text =
    if (Nat.ofDigitChars 10 (leadingDigits text) index : ℤ) ≤ intMax then
      .ok (if text.all Char.isDigit then some (Nat.ofDigitChars 10 text index : ℤ) else none)
    else .error .overflow
  := by
  induction text generalizing index with
  | nil =>
    rw [leadingDigits, takeWhile_nil, Nat.ofDigitChars_nil, if_pos h]
    rfl
  | cons c text ih =>
    rw [readIndex, leadingDigits]
    by_cases hdigit : c.isDigit = true
    · rw [if_pos hdigit, takeWhile_cons_of_pos hdigit, Nat.ofDigitChars_cons,
        Nat.ofDigitChars_cons, all_cons, hdigit, Bool.true_and, ← leadingDigits]
      generalize hvalue : c.toNat - '0'.toNat = value
      by_cases hnext : ((10 * index + value : ℕ) : ℤ) ≤ intMax
      · have hscaled : int ((index : ℤ) * 10) = .ok ((index : ℤ) * 10) :=
          int_eq_ok (by unfold intMax; omega) (by omega)
        have hsum : int ((index : ℤ) * 10 + (value : ℤ)) = .ok ((10 * index + value : ℕ) : ℤ) := by
          rw [int_eq_ok (by unfold intMax; omega) (by omega)]
          congr 1
          omega
        rw [hscaled, ok_bind, hsum, ok_bind, ih _ hnext]
      · have hlarge := le_ofDigitChars (leadingDigits text) (10 * index + value)
        rw [if_neg (by omega)]
        by_cases hscaled : (index : ℤ) * 10 ≤ intMax
        · rw [int_eq_ok (by unfold intMax; omega) hscaled, ok_bind, int_eq_error (by omega),
            error_bind]
        · rw [int_eq_error (not_le.mp hscaled), error_bind]
    · rw [if_neg hdigit, takeWhile_cons_of_neg hdigit, Nat.ofDigitChars_nil, if_pos h,
        all_cons, Bool.eq_false_iff.mpr hdigit, Bool.false_and]
      rfl

theorem readIndex_zero (text : List Char) :
  readIndex 0 text =
    if (spelled (leadingDigits text) : ℤ) ≤ intMax then
      .ok (if text.all Char.isDigit then some (spelled text : ℤ) else none)
    else .error .overflow
  := readIndex_eq 0 (by decide) text

/-- What a reference is read as: its arena and the number its digits spell. -/
def spelledParts (ref : String) : RefParts :=
  match splitRef ref with
  | none => {}
  | some (arena, text) => if text.all Char.isDigit then ⟨arena, spelled text⟩ else {}

theorem spelledParts_cases (ref : String) :
  spelledParts ref = {} ∨ ∃ text, splitRef ref = some ((spelledParts ref).arena, text) ∧
    text.all Char.isDigit = true ∧ (spelledParts ref).index = spelled text
  := by
  unfold spelledParts
  cases hsplit : splitRef ref with
  | none => exact .inl rfl
  | some split =>
    obtain ⟨arena, text⟩ := split
    dsimp only
    by_cases hall : text.all Char.isDigit = true
    · rw [if_pos hall]
      exact .inr ⟨text, rfl, hall, rfl⟩
    · rw [if_neg hall]
      exact .inl rfl

/-- A reference whose leading digits spell an `int` is read without a fault. -/
theorem parseRefParts_of_bounded {ref : String} (h : Bounded ref) :
  parseRefParts ref = .ok (spelledParts ref)
  := by
  unfold parseRefParts spelledParts
  cases hsplit : splitRef ref with
  | none => rfl
  | some parts =>
    obtain ⟨arena, text⟩ := parts
    dsimp only
    rw [readIndex_zero, if_pos (h arena text hsplit), ok_bind]
    by_cases hall : text.all Char.isDigit = true
    · rw [if_pos hall, if_pos hall]
    · rw [if_neg hall, if_neg hall]

theorem parseRefParts_of_not_bounded {ref : String} (h : ¬ Bounded ref) :
  parseRefParts ref = .error .overflow
  := by
  unfold Bounded at h
  push Not at h
  obtain ⟨arena, text, hsplit, hlarge⟩ := h
  rw [parseRefParts, hsplit]
  dsimp only
  rw [readIndex_zero, if_neg (not_le.mpr hlarge), error_bind]

theorem eq_of_parseRefParts {ref : String} {parts : RefParts} (h : parseRefParts ref = .ok parts) :
  parts = spelledParts ref
  := by
  by_cases hbounded : Bounded ref
  · rw [parseRefParts_of_bounded hbounded] at h
    cases h
    rfl
  · rw [parseRefParts_of_not_bounded hbounded] at h
    cases h

/-! ### Writing -/

/-- The reference to a slot of an arena. -/
def refOf (arena : String) (index : ℤ) : String :=
  "#/" ++ arena ++ "/" ++ toString index

theorem toList_refOf (arena : String) (index : ℤ) :
  (refOf arena index).toList = '#' :: '/' :: (arena.toList ++ '/' :: (toString index).toList)
  := by
  simp [refOf, String.toList_append]

theorem toList_toString_ofNat (index : ℕ) :
  (toString (index : ℤ)).toList = Nat.toDigits 10 index
  := by
  simp [Int.toString_eq_repr, Int.repr]

theorem toList_toString_negSucc (index : ℕ) :
  (toString (Int.negSucc index)).toList = '-' :: Nat.toDigits 10 (index + 1)
  := by
  simp [Int.toString_eq_repr, Int.repr, String.toList_append]

theorem all_isDigit_toDigits (index : ℕ) :
  (Nat.toDigits 10 index).all Char.isDigit = true
  := all_eq_true.mpr fun _ hc => Nat.isDigit_of_mem_toDigits (by decide) (by decide) hc

/-- A number is written in digits only just when it is not negative. -/
theorem all_isDigit_toString (index : ℤ) :
  (toString index).toList.all Char.isDigit = decide (0 ≤ index)
  := by
  cases index with
  | ofNat index =>
    rw [Int.ofNat_eq_natCast, toList_toString_ofNat, all_isDigit_toDigits]
    simp
  | negSucc index =>
    rw [toList_toString_negSucc, all_cons]
    simp [Int.negSucc_not_nonneg]

theorem toString_ne_nil (index : ℤ) : (toString index).toList ≠ [] := by
  cases index with
  | ofNat index =>
    rw [Int.ofNat_eq_natCast, toList_toString_ofNat]
    exact Nat.toDigits_ne_nil
  | negSucc index =>
    rw [toList_toString_negSucc]
    exact List.cons_ne_nil _ _

theorem spelled_toString (index : ℕ) :
  spelled (toString (index : ℤ)).toList = index
  := by
  rw [toList_toString_ofNat]
  exact Nat.ofDigitChars_ten_toDigits

/-- The name of an arena has no slash in it. -/
theorem slash_notMem_of_splitRef {ref arena : String} {text : List Char}
    (h : splitRef ref = some (arena, text)) :
  '/' ∉ arena.toList
  := by
  unfold splitRef at h
  split at h
  case h_1 rest _ =>
    split at h
    case h_1 =>
      cases h
      rw [String.toList_ofList]
      intro hmem
      simpa using mem_takeWhile_imp hmem
    case h_2 => cases h
  case h_2 => cases h

theorem takeWhile_append_slash {arena : List Char} (h : '/' ∉ arena) (text : List Char) :
  (arena ++ '/' :: text).takeWhile (· ≠ '/') = arena ∧
    (arena ++ '/' :: text).dropWhile (· ≠ '/') = '/' :: text
  := by
  induction arena with
  | nil => simp
  | cons c arena ih =>
    rw [mem_cons, not_or] at h
    obtain ⟨hc, harena⟩ := h
    obtain ⟨htake, hdrop⟩ := ih harena
    have hne : c ≠ '/' := fun heq => hc heq.symm
    simp only [cons_append, takeWhile_cons, dropWhile_cons, hne, ne_eq,
      not_false_eq_true, decide_true, if_true]
    exact ⟨congrArg _ htake, hdrop⟩

/-- What is written for a slot splits into its arena and its index. -/
theorem splitRef_refOf {arena : String} (h : '/' ∉ arena.toList) (index : ℤ) :
  splitRef (refOf arena index) = some (arena, (toString index).toList)
  := by
  obtain ⟨c, text, htext⟩ := exists_cons_of_ne_nil (toString_ne_nil index)
  obtain ⟨htake, hdrop⟩ := takeWhile_append_slash h (c :: text)
  unfold splitRef
  rw [toList_refOf, htext]
  simp only [hdrop, htake, String.ofList_toList]

end GRParse.LoadNorm
