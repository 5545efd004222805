import GRParse.Headings.Numbering
import GRParse.Lib.EditTable
import Mathlib.Algebra.Order.Field.Basic
import Mathlib.Tactic.Positivity

/-!
# Distances of titles

Titles are compared without case and punctuation.  Their similarity is computed from the edit distance,
row by row in one array.  When only a distance up to a limit matters, the cells around the diagonal are
computed alone, and the rows below one that exceeds the limit are left out.

A row is a function on the columns.  Similarities are fractions.
-/

namespace GRParse.Headings

open EditTable List Function Nat

/-! ### Titles -/

/-- What the loop over a title keeps: the text so far, and whether a space is due. -/
structure TitleState where
  out : List UInt8 := []
  space : Bool := false

def TitleState.visit (state : TitleState) (letter : UInt8) : TitleState :=
  if isAlnum letter || 0x80 ≤ letter then
    let spaced := if state.space && !state.out.isEmpty then state.out ++ [0x20] else state.out
    { out := spaced ++ [toLower letter], space := false }
  else { state with space := true }

def normalizedTitle (text : List UInt8) : List UInt8 :=
  (text.foldl TitleState.visit {}).out

/-! ### The whole table -/

/-- One cell: the row read so far, and the cell before it in the row above. -/
def titleCell (x y : List UInt8) (i : ℕ) (state : (ℕ → ℕ) × ℕ) (j : ℕ) : (ℕ → ℕ) × ℕ :=
  let row := state.1
  let diagonal := state.2
  let value := min (min (row j + 1) (row (j - 1) + 1))
    (diagonal + if x[i - 1]? = y[j - 1]? then 0 else 1)
  (Function.update row j value, row j)

def titleRow (x y : List UInt8) (row : ℕ → ℕ) (i : ℕ) : ℕ → ℕ :=
  ((List.range' 1 y.length).foldl (titleCell x y i) (Function.update row 0 i, row 0)).1

/-- The last cell of the last row. -/
def titleDistance (x y : List UInt8) : ℕ :=
  ((List.range' 1 x.length).foldl (titleRow x y) id) y.length

/-- `heading_title_similarity` of titles that are normalized. -/
def titleSimilarity (x y : List UInt8) : ℚ :=
  if x = [] ∧ y = [] then 1
  else if x = [] ∨ y = [] then 0
  else 1 - titleDistance x y / (max x.length y.length : ℕ)

def headingTitleSimilarity (a b : List UInt8) : ℚ :=
  titleSimilarity (normalizedTitle a) (normalizedTitle b)

/-! ### The band -/

/-- A row of the band, and the least of its cells. -/
structure BandRow where
  current : ℕ → ℕ
  rowMinimum : ℕ

def bandLow (i limit : ℕ) : ℕ :=
  if i > limit then i - limit else 1

def bandHigh (width i limit : ℕ) : ℕ :=
  min width (i + limit)

def bandCell (x y : List UInt8) (limit i : ℕ) (previous : ℕ → ℕ) (state : BandRow) (j : ℕ) :
    BandRow :=
  let substitution := previous (j - 1) + if x[i - 1]? = y[j - 1]? then 0 else 1
  let value := min (min (previous j + 1) (state.current (j - 1) + 1)) substitution
  let cell := min value (limit + 1)
  { current := Function.update state.current j cell
    rowMinimum := min state.rowMinimum cell }

/-- The cells of a row, and the cell behind the last. -/
def bandRow (x y : List UInt8) (limit i : ℕ) (previous current : ℕ → ℕ) : BandRow :=
  let low := bandLow i limit
  let high := bandHigh y.length i limit
  let first := if low = 1 ∧ i ≤ limit then i else limit + 1
  let row := (List.range' low (high + 1 - low)).foldl (bandCell x y limit i previous)
    { current := Function.update current (low - 1) first, rowMinimum := first }
  if high < y.length then { row with current := Function.update row.current (high + 1) (limit + 1) }
  else row

/-- The rows of the band, until one exceeds the limit; the cells are counted. -/
def bandRows (x y : List UInt8) (limit : ℕ) :
    List ℕ → (previous current : ℕ → ℕ) → (cells : ℕ) → ℕ × ℕ
  | [], previous, _, cells => (min (previous y.length) (limit + 1), cells)
  | i :: rest, previous, current, cells =>
    let row := bandRow x y limit i previous current
    let cells := cells + (bandHigh y.length i limit - bandLow i limit + 1)
    if row.rowMinimum > limit then (limit + 1, cells)
    else bandRows x y limit rest row.current previous cells

/-- The distance of texts of which the first is not longer. -/
def bandDistance (x y : List UInt8) (limit cells : ℕ) : ℕ × ℕ :=
  if y.length - x.length > limit then (limit + 1, cells)
  else
    bandRows x y limit (List.range' 1 x.length)
      (fun j => if j ≤ min y.length limit then j else limit + 1) (fun _ => limit + 1) cells

def boundedEditDistance (x y : List UInt8) (limit cells : ℕ) : ℕ × ℕ :=
  if x.length > y.length then bandDistance y x limit cells else bandDistance x y limit cells

/-! ### The whole table holds the distances -/

variable {x y : List UInt8}

/-- Behind some cells of a row, those cells are of the row and the others of the row above. -/
theorem titleCells_eq {row : ℕ → ℕ} {i : ℕ} (h : ∀ j ≤ y.length, row j = distance x y i j)
    {count : ℕ} (hcount : count ≤ y.length) :
  let state := (List.range' 1 count).foldl (titleCell x y (i + 1))
    (Function.update row 0 (i + 1), row 0)
  (∀ j ≤ count, state.1 j = distance x y (i + 1) j) ∧
    (∀ j, count < j → j ≤ y.length → state.1 j = distance x y i j) ∧
    state.2 = distance x y i count
  := by
  induction count with
  | zero =>
    refine ⟨?_, ?_, ?_⟩
    · intro j hj
      obtain rfl := le_zero.mp hj
      simp
    · intro j hlt hj
      simpa [update_of_ne hlt.ne'] using h j hj
    · exact h 0 (zero_le _)
  | succ count ih =>
    obtain ⟨hleft, habove, hdiagonal⟩ := ih (by omega)
    rw [range'_1_concat, foldl_append]
    generalize (range' 1 count).foldl (titleCell x y (i + 1))
      (update row 0 (i + 1), row 0) = state at hleft habove hdiagonal
    have hvalue : (titleCell x y (i + 1) state (1 + count)).1 (count + 1) =
        distance x y (i + 1) (count + 1) := by
      have hup := habove (count + 1) (lt_succ_self _) hcount
      have hback := hleft count le_rfl
      rw [distance_succ_succ, ← hup, ← hback, ← hdiagonal, mismatch, add_comm 1 count]
      simp [titleCell]
    refine ⟨?_, ?_, ?_⟩
    · intro j hj
      rcases lt_or_ge j (count + 1) with hlt | hge
      · have hne : j ≠ 1 + count := by omega
        simpa [titleCell, update_of_ne hne] using hleft j (by omega)
      · obtain rfl : j = count + 1 := by omega
        exact hvalue
    · intro j hlt hj
      have hne : j ≠ 1 + count := by omega
      simpa [titleCell, update_of_ne hne] using habove j (by omega) hj
    · simpa [titleCell, add_comm 1 count] using
        habove (count + 1) (lt_succ_self _) hcount

theorem titleRows_eq (x y : List UInt8) (count : ℕ) :
  ∀ j ≤ y.length, ((List.range' 1 count).foldl (titleRow x y) id) j = distance x y count j
  := by
  induction count with
  | zero =>
    intro j _
    rfl
  | succ count ih =>
    rw [range'_1_concat, foldl_append, add_comm 1 count]
    exact (titleCells_eq ih le_rfl).1

/-- The last cell is the edit distance. -/
theorem titleDistance_eq (x y : List UInt8) :
  titleDistance x y = distance x y x.length y.length
  := titleRows_eq x y x.length y.length le_rfl

/-! ### The band holds the distances up to the limit -/

/-- The cells of a row that are next to the diagonal, or one farther than the limit. -/
def NearDiagonal (width limit i j : ℕ) : Prop :=
  i ≤ j + limit + 1 ∧ j ≤ i + limit + 1 ∧ j ≤ width

/-- A row holds the distances near the diagonal, cut off behind the limit. -/
def HoldsBand (x y : List UInt8) (limit i : ℕ) (row : ℕ → ℕ) : Prop :=
  ∀ j, NearDiagonal y.length limit i j → row j = min (distance x y i j) (limit + 1)

/-- A row behind some of its cells. -/
structure BandCells (x y : List UInt8) (limit i count : ℕ) (state : BandRow) : Prop where
  cells : ∀ j, bandLow i limit - 1 ≤ j → j < bandLow i limit + count →
    state.current j = min (distance x y i j) (limit + 1)
  least : ∀ j, bandLow i limit - 1 ≤ j → j < bandLow i limit + count →
    state.rowMinimum ≤ min (distance x y i j) (limit + 1)

theorem bandLow_pos (i limit : ℕ) :
  1 ≤ bandLow (i + 1) limit
  := by
  rw [bandLow]
  split <;> omega

/-- The cell before the first of a row is at the edge of the table or farther than the limit. -/
theorem bandCells_zero (limit i : ℕ) (current : ℕ → ℕ) :
  let first := if bandLow (i + 1) limit = 1 ∧ i + 1 ≤ limit then i + 1 else limit + 1
  BandCells x y limit (i + 1) 0
    { current := Function.update current (bandLow (i + 1) limit - 1) first, rowMinimum := first }
  := by
  have hpos := bandLow_pos i limit
  have hfirst : (if bandLow (i + 1) limit = 1 ∧ i + 1 ≤ limit then i + 1 else limit + 1) =
      min (distance x y (i + 1) (bandLow (i + 1) limit - 1)) (limit + 1) := by
    have hfar := (sub_le_distance x y (i + 1) (bandLow (i + 1) limit - 1)).1
    rcases lt_or_ge limit (i + 1) with hlt | hle
    · have hlow : bandLow (i + 1) limit = i + 1 - limit := if_pos hlt
      rw [if_neg (by omega)]
      omega
    · have hlow : bandLow (i + 1) limit = 1 := if_neg (by omega)
      rw [if_pos ⟨hlow, hle⟩, hlow, distance_zero_right]
      omega
  constructor
  case cells =>
    intro j hge hlt
    obtain rfl : j = bandLow (i + 1) limit - 1 := by omega
    simpa using hfirst
  case least =>
    intro j hge hlt
    obtain rfl : j = bandLow (i + 1) limit - 1 := by omega
    exact hfirst.le

variable {previous : ℕ → ℕ}

/-- One cell of the band. -/
theorem BandCells.cell {limit i count : ℕ} {state : BandRow}
    (h : BandCells x y limit (i + 1) count state) (hprevious : HoldsBand x y limit i previous)
    (hcount : bandLow (i + 1) limit + count ≤ bandHigh y.length (i + 1) limit) :
  BandCells x y limit (i + 1) (count + 1)
    (bandCell x y limit (i + 1) previous state (bandLow (i + 1) limit + count))
  := by
  have hpos := bandLow_pos i limit
  have hlow : i + 1 ≤ bandLow (i + 1) limit + limit := by
    rw [bandLow]
    split <;> omega
  rw [bandHigh] at hcount
  obtain ⟨j, hj⟩ : ∃ j, bandLow (i + 1) limit + count = j + 1 :=
    ⟨bandLow (i + 1) limit + count - 1, by omega⟩
  have hup := hprevious (j + 1) ⟨by omega, by omega, by omega⟩
  have hdiagonal := hprevious j ⟨by omega, by omega, by omega⟩
  have hback := h.cells j (by omega) (by omega)
  have hvalue : (bandCell x y limit (i + 1) previous state (j + 1)).current (j + 1) =
      min (distance x y (i + 1) (j + 1)) (limit + 1) := by
    rw [bandCell, distance_succ_succ, mismatch]
    simp only [Nat.add_sub_cancel, update_self, hup, hdiagonal, hback]
    omega
  rw [hj]
  constructor
  case cells =>
    intro k hge hlt
    rcases Nat.lt_or_ge k (j + 1) with hk | hk
    · rw [← h.cells k hge (by omega), bandCell]
      exact update_of_ne (by omega) _ _
    · obtain rfl : k = j + 1 := by omega
      exact hvalue
  case least =>
    intro k hge hlt
    rcases Nat.lt_or_ge k (j + 1) with hk | hk
    · exact (min_le_left _ _).trans (h.least k hge (by omega))
    · obtain rfl : k = j + 1 := by omega
      rw [← hvalue, bandCell]
      simp

theorem bandCells_fold {limit i : ℕ} {start : BandRow} (h : BandCells x y limit (i + 1) 0 start)
    (hprevious : HoldsBand x y limit i previous) (count : ℕ)
    (hcount : bandLow (i + 1) limit + count ≤ bandHigh y.length (i + 1) limit + 1) :
  BandCells x y limit (i + 1) count
    ((List.range' (bandLow (i + 1) limit) count).foldl (bandCell x y limit (i + 1) previous) start)
  := by
  induction count with
  | zero => exact h
  | succ count ih =>
    rw [range'_1_concat, foldl_append]
    exact (ih (by omega)).cell hprevious (by omega)

/-- A row of the band holds the distances of its row, and its least cell is not above any. -/
theorem bandRow_holds {limit i : ℕ} (hprevious : HoldsBand x y limit i previous)
    (hi : i < y.length) (current : ℕ → ℕ) :
  HoldsBand x y limit (i + 1) (bandRow x y limit (i + 1) previous current).current ∧
    ((bandRow x y limit (i + 1) previous current).rowMinimum > limit →
      ∀ j ≤ y.length, limit < distance x y (i + 1) j)
  := by
  have hlow : bandLow (i + 1) limit ≤ bandHigh y.length (i + 1) limit + 1 := by
    rw [bandLow, bandHigh]
    split <;> omega
  have hcells := bandCells_fold (bandCells_zero (x := x) (y := y) limit i current)
    hprevious (bandHigh y.length (i + 1) limit + 1 - bandLow (i + 1) limit) (by omega)
  rw [bandRow]
  generalize (range' (bandLow (i + 1) limit)
    (bandHigh y.length (i + 1) limit + 1 - bandLow (i + 1) limit)).foldl
      (bandCell x y limit (i + 1) previous) _ = row at hcells ⊢
  obtain ⟨hcells, hleast⟩ := hcells
  have hbound : bandLow (i + 1) limit +
      (bandHigh y.length (i + 1) limit + 1 - bandLow (i + 1) limit) =
        bandHigh y.length (i + 1) limit + 1 := by
    omega
  rw [hbound] at hcells hleast
  have hstart (j : ℕ) (hj : i + 1 ≤ j + limit + 1) : bandLow (i + 1) limit - 1 ≤ j := by
    rw [bandLow]
    split <;> omega
  have hhigh : bandHigh y.length (i + 1) limit = min y.length (i + 1 + limit) := rfl
  constructor
  · rintro j ⟨hleft, hright, hwidth⟩
    split
    case isTrue hlt =>
      rcases lt_or_ge (bandHigh y.length (i + 1) limit) j with hj | hj
      · obtain rfl : j = bandHigh y.length (i + 1) limit + 1 := by omega
        have hfar := (sub_le_distance x y (i + 1) (bandHigh y.length (i + 1) limit + 1)).2
        dsimp only
        rw [update_self]
        omega
      · dsimp only
        rw [update_of_ne (by omega)]
        exact hcells j (hstart j hleft) (by omega)
    case isFalse hge => exact hcells j (hstart j hleft) (by omega)
  · intro hminimum j hj
    have hrow : row.rowMinimum > limit := by
      revert hminimum
      split <;> exact id
    by_cases hnear : i + 1 ≤ j + limit ∧ j ≤ i + 1 + limit
    · have hcell := hleast j (hstart j (by omega)) (by omega)
      omega
    · obtain ⟨hleft, hright⟩ := sub_le_distance x y (i + 1) j
      omega

/-- The rows of the band end in the distance, or in one that exceeds the limit. -/
theorem bandRows_eq {limit : ℕ} (hlength : x.length ≤ y.length)
    (hnear : y.length ≤ x.length + limit) {count i : ℕ} (hcount : i + count = x.length)
    (hprevious : HoldsBand x y limit i previous) (current : ℕ → ℕ) (cells : ℕ) :
  (bandRows x y limit (List.range' (i + 1) count) previous current cells).1 =
    min (distance x y x.length y.length) (limit + 1)
  := by
  induction count generalizing i previous current cells with
  | zero =>
    obtain rfl : i = x.length := by omega
    have hlast := hprevious y.length ⟨by omega, by omega, le_rfl⟩
    rw [range'_zero, bandRows, hlast]
    omega
  | succ count ih =>
    obtain ⟨hrow, hminimum⟩ := bandRow_holds hprevious (by omega) current
    rw [range'_succ, bandRows]
    split
    case isTrue hexceeds =>
      have hlast := lt_distance_of_row (hminimum hexceeds) (show i + 1 ≤ x.length by omega)
        y.length le_rfl
      dsimp only
      omega
    case isFalse => exact ih (by omega) hrow _ _

theorem bandDistance_eq (hlength : x.length ≤ y.length) (limit cells : ℕ) :
  (bandDistance x y limit cells).1 = min (distance x y x.length y.length) (limit + 1)
  := by
  rw [bandDistance]
  split
  case isTrue hfar =>
    have hdistance := (sub_le_distance x y x.length y.length).2
    dsimp only
    omega
  case isFalse hnear =>
    have hzero : HoldsBand x y limit 0
        (fun j => if j ≤ min y.length limit then j else limit + 1) := by
      rintro j ⟨-, hright, hwidth⟩
      dsimp only
      rw [distance_zero]
      split <;> omega
    exact bandRows_eq hlength (by omega) (zero_add _) hzero _ _

/-- The distance, cut off behind the limit. -/
theorem boundedEditDistance_eq (x y : List UInt8) (limit cells : ℕ) :
  (boundedEditDistance x y limit cells).1 = min (titleDistance x y) (limit + 1)
  := by
  rw [boundedEditDistance, titleDistance_eq]
  split
  case isTrue hlt => rw [bandDistance_eq (by omega), distance_comm]
  case isFalse hge => exact bandDistance_eq (by omega) limit cells

/-! ### Cells are counted -/

theorem le_bandRows (x y : List UInt8) (limit : ℕ) (rows : List ℕ) (previous current : ℕ → ℕ)
    (cells : ℕ) :
  cells ≤ (bandRows x y limit rows previous current cells).2
  := by
  induction rows generalizing previous current cells with
  | nil => exact le_rfl
  | cons i rows ih =>
    rw [bandRows]
    split
    · exact le_add_right _ _
    · exact (le_add_right _ _).trans (ih _ _ _)

theorem le_boundedEditDistance (x y : List UInt8) (limit cells : ℕ) :
  cells ≤ (boundedEditDistance x y limit cells).2
  := by
  rw [boundedEditDistance]
  split
  all_goals
    rw [bandDistance]
    split
    · exact le_rfl
    · apply le_bandRows

/-! ### Similarities -/

/-- The array of rows ends in the least number of edits from one title to the other. -/
theorem titleDistance_isLeast (x y : List UInt8) :
  IsLeast { n | Edits n x y } (titleDistance x y)
  := by
  rw [titleDistance_eq]
  exact distance_isLeast x y

variable (x y)

theorem titleSimilarity_comm :
  titleSimilarity x y = titleSimilarity y x
  := by
  rw [titleSimilarity, titleSimilarity, titleDistance_eq, titleDistance_eq, distance_comm,
    max_comm]
  simp only [and_comm, or_comm]

/-- A similarity is a fraction of one. -/
theorem titleSimilarity_mem_Icc :
  titleSimilarity x y ∈ Set.Icc 0 1
  := by
  rw [titleSimilarity]
  split_ifs
  · simp
  · simp
  · have hle := distance_le_max x y x.length y.length
    rw [← titleDistance_eq] at hle
    constructor
    · rw [sub_nonneg]
      apply div_le_one_of_le₀
      · exact_mod_cast hle
      · positivity
    · apply sub_le_self
      positivity

/-- Titles are wholly alike if they are equal. -/
theorem titleSimilarity_eq_one_iff :
  titleSimilarity x y = 1 ↔ x = y
  := by
  rw [titleSimilarity]
  by_cases hx : x = []
  · by_cases hy : y = []
    · simp [hx, hy]
    · simp [hx, hy, Ne.symm hy]
  · by_cases hy : y = []
    · simp [hx, hy]
    · have hpos : (0 : ℚ) < (max x.length y.length : ℕ) := by
        have hlength := length_pos_iff.mpr hx
        exact_mod_cast lt_max_of_lt_left hlength
      rw [if_neg (fun h => hx h.1), if_neg (fun h => h.elim hx hy), sub_eq_self,
        div_eq_zero_iff, or_iff_left hpos.ne', titleDistance_eq, cast_eq_zero,
        distance_eq_zero_iff]

/-! ### Titles once normalized -/

/-- A letter made small is one that stays, and is small. -/
theorem toLower_kept {c : UInt8} (h : (isAlnum c || 0x80 ≤ c) = true) :
  (isAlnum (toLower c) || 0x80 ≤ toLower c) = true ∧ toLower (toLower c) = toLower c
  := by
  by_cases hupper : isUpper c = true
  · have hlower : isLower (c + 0x20) = true ∧ isUpper (c + 0x20) = false := by
      simp only [isUpper, isLower, Bool.and_eq_true, decide_eq_true_eq, UInt8.le_iff_toNat_le,
        UInt8.toNat_add, Bool.and_eq_false_iff, decide_eq_false_iff_not, UInt8.reduceToNat] at hupper ⊢
      omega
    simp [toLower, hupper, isAlnum, isLetter, hlower]
  · simp [toLower, hupper] at h ⊢
    exact h

/-- A blank is written only before a letter that stays. -/
theorem visit_blank (out : List UInt8) :
  TitleState.visit { out := out } 0x20 = { out := out, space := true }
  := if_neg (by decide)

theorem visit_kept (state : TitleState) {c : UInt8} (h : (isAlnum c || 0x80 ≤ c) = true) :
  state.visit c =
    { out := (if state.space && !state.out.isEmpty then state.out ++ [0x20] else state.out) ++
        [toLower c] }
  := if_pos h

/-- What a title was made into is made of it again. -/
theorem normalizedTitle_idem (text : List UInt8) :
  normalizedTitle (normalizedTitle text) = normalizedTitle text
  := by
  -- What was written is read back as it is, with no space due behind it.
  have hsettled : (normalizedTitle text).foldl TitleState.visit {} =
      { out := normalizedTitle text } := by
    rw [normalizedTitle]
    induction text using reverseRecOn with
    | nil => rfl
    | append_singleton text c ih =>
      rw [foldl_append]
      generalize text.foldl TitleState.visit {} = state at ih ⊢
      obtain ⟨out, space⟩ := state
      dsimp only at ih
      by_cases hkept : (isAlnum c || 0x80 ≤ c) = true
      · obtain ⟨hlower, hidem⟩ := toLower_kept hkept
        rw [foldl_cons, foldl_nil, visit_kept _ hkept]
        cases hspace : space && !out.isEmpty with
        | false => simp [ih, visit_kept _ hlower, hidem]
        | true =>
          have hout : out.isEmpty = false := by simp_all
          simp [ih, visit_blank, visit_kept _ hlower, hidem, hout]
      · simpa [TitleState.visit, hkept] using ih
  rw [normalizedTitle, hsettled]

/-- A title and its normal form are alike to the same titles. -/
theorem headingTitleSimilarity_spec (a b : List UInt8) :
  headingTitleSimilarity a b ∈ Set.Icc 0 1 ∧
    headingTitleSimilarity a b = headingTitleSimilarity b a ∧
    (headingTitleSimilarity a b = 1 ↔ normalizedTitle a = normalizedTitle b) ∧
    headingTitleSimilarity (normalizedTitle a) b = headingTitleSimilarity a b
  := by
  refine ⟨titleSimilarity_mem_Icc _ _, titleSimilarity_comm _ _,
    titleSimilarity_eq_one_iff _ _, ?_⟩
  rw [headingTitleSimilarity, headingTitleSimilarity, normalizedTitle_idem]

end GRParse.Headings
