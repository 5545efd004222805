import GRParse.Headings.TitleDistance

/-!
# The band in `size_t`

`bounded_edit_distance` adds in `size_t`, where sums wrap around.  As long as the limit and the number
of rows stay below the wrap the result is the distance, cut off behind the limit.  From the first row
on whose bound wraps, the band ends in front of the last column: what is returned then is the last cell
of one of the two rows above, whichever is in the buffer that is read in the end.
-/

namespace GRParse.Headings.SizeT

open EditTable List Function Nat

/-! ### The function -/

/-- The value of a sum in `size_t`. -/
def wrap (sum : ℕ) : ℕ :=
  sum % 2 ^ 64

def overLimit (limit : ℕ) : ℕ :=
  wrap (limit + 1)

def bandHigh (width i limit : ℕ) : ℕ :=
  min width (wrap (i + limit))

def bandCell (x y : List UInt8) (limit i : ℕ) (previous : ℕ → ℕ) (state : BandRow) (j : ℕ) :
    BandRow :=
  let substitution := wrap (previous (j - 1) + if x[i - 1]? = y[j - 1]? then 0 else 1)
  let value := min (min (wrap (previous j + 1)) (wrap (state.current (j - 1) + 1))) substitution
  let cell := min value (overLimit limit)
  { current := Function.update state.current j cell
    rowMinimum := min state.rowMinimum cell }

/-- The cells of a row, and the cell behind the last. -/
def bandRow (x y : List UInt8) (limit i : ℕ) (previous current : ℕ → ℕ) : BandRow :=
  let low := bandLow i limit
  let high := bandHigh y.length i limit
  let first := if low = 1 ∧ i ≤ limit then i else overLimit limit
  let row := (List.range' low (high + 1 - low)).foldl (bandCell x y limit i previous)
    { current := Function.update current (low - 1) first, rowMinimum := first }
  if high < y.length then { row with current := Function.update row.current (high + 1) (overLimit limit) }
  else row

/-- The rows of the band, until one exceeds the limit; the cells are counted. -/
def bandRows (x y : List UInt8) (limit : ℕ) :
    List ℕ → (previous current : ℕ → ℕ) → (cells : ℕ) → ℕ × ℕ
  | [], previous, _, cells => (min (previous y.length) (overLimit limit), cells)
  | i :: rest, previous, current, cells =>
    let row := bandRow x y limit i previous current
    let cells := wrap (cells + (bandHigh y.length i limit + 2 ^ 64 - bandLow i limit + 1))
    if row.rowMinimum > limit then (overLimit limit, cells)
    else bandRows x y limit rest row.current previous cells

/-- The distance of texts of which the first is not longer. -/
def bandDistance (x y : List UInt8) (limit cells : ℕ) : ℕ × ℕ :=
  if y.length - x.length > limit then (overLimit limit, cells)
  else
    bandRows x y limit (List.range' 1 x.length)
      (fun j => if j ≤ min y.length limit then j else overLimit limit) (fun _ => overLimit limit) cells

/-- `bounded_edit_distance`. -/
def boundedEditDistance (x y : List UInt8) (limit cells : ℕ) : ℕ × ℕ :=
  if x.length > y.length then bandDistance y x limit cells else bandDistance x y limit cells

theorem wrap_of_lt {sum : ℕ} (h : sum < 2 ^ 64) :
  wrap sum = sum
  := mod_eq_of_lt h

/-! ### A limit below the width -/

/-- The cells of a row are no more than one above the limit. -/
def Bounded (limit : ℕ) (row : ℕ → ℕ) : Prop :=
  ∀ j, row j ≤ limit + 1

theorem Bounded.update {limit : ℕ} {row : ℕ → ℕ} (h : Bounded limit row) (j : ℕ) {value : ℕ}
    (hvalue : value ≤ limit + 1) :
  Bounded limit (Function.update row j value)
  := by
  intro j'
  by_cases hj : j' = j
  · rw [hj, update_self]
    exact hvalue
  · rw [update_of_ne hj]
    exact h j'

section

variable {x y : List UInt8} {limit i : ℕ} {previous : ℕ → ℕ}

theorem overLimit_eq (h : limit + 2 < 2 ^ 64) :
  overLimit limit = limit + 1
  := wrap_of_lt (by omega)

theorem bandCell_eq (hlimit : limit + 2 < 2 ^ 64) (hprevious : Bounded limit previous)
    {state : BandRow} (hstate : Bounded limit state.current) (j : ℕ) :
  bandCell x y limit i previous state j = Headings.bandCell x y limit i previous state j
  := by
  have hup := hprevious j
  have hdiagonal := hprevious (j - 1)
  have hback := hstate (j - 1)
  have hmismatch : (if x[i - 1]? = y[j - 1]? then 0 else 1) ≤ 1 := by
    split
    · exact zero_le _
    · exact le_rfl
  rw [bandCell, Headings.bandCell, overLimit_eq hlimit, wrap_of_lt (by omega), wrap_of_lt (by omega),
    wrap_of_lt (by omega)]

theorem bandCells_eq (hlimit : limit + 2 < 2 ^ 64) (hprevious : Bounded limit previous)
    (columns : List ℕ) {state : BandRow} (hstate : Bounded limit state.current) :
  columns.foldl (bandCell x y limit i previous) state =
      columns.foldl (Headings.bandCell x y limit i previous) state ∧
    Bounded limit (columns.foldl (Headings.bandCell x y limit i previous) state).current
  := by
  induction columns generalizing state with
  | nil => exact ⟨rfl, hstate⟩
  | cons j columns ih =>
    rw [foldl_cons, foldl_cons, bandCell_eq hlimit hprevious hstate]
    exact ih (hstate.update j (min_le_right _ _))

theorem bandHigh_eq (hsum : i + limit < 2 ^ 64) (width : ℕ) :
  bandHigh width i limit = Headings.bandHigh width i limit
  := by
  rw [bandHigh, Headings.bandHigh, wrap_of_lt hsum]

theorem bandRow_eq (hlimit : limit + 2 < 2 ^ 64) (hsum : i + limit < 2 ^ 64)
    (hprevious : Bounded limit previous) {current : ℕ → ℕ} (hcurrent : Bounded limit current) :
  bandRow x y limit i previous current = Headings.bandRow x y limit i previous current ∧
    Bounded limit (Headings.bandRow x y limit i previous current).current
  := by
  have hfirst : (if bandLow i limit = 1 ∧ i ≤ limit then i else limit + 1) ≤ limit + 1 := by
    split
    · omega
    · exact le_rfl
  rw [bandRow, Headings.bandRow, bandHigh_eq hsum, overLimit_eq hlimit]
  generalize (if bandLow i limit = 1 ∧ i ≤ limit then i else limit + 1) = first at hfirst
  obtain ⟨hcells, hbounded⟩ := @bandCells_eq x y limit i previous hlimit hprevious
    (range' (bandLow i limit) (Headings.bandHigh y.length i limit + 1 - bandLow i limit))
    ⟨update current (bandLow i limit - 1) first, first⟩ (hcurrent.update _ hfirst)
  constructor
  · rw [hcells]
  · split
    · exact hbounded.update _ le_rfl
    · exact hbounded

theorem bandRows_eq (hlimit : limit + 2 < 2 ^ 64) {rows : List ℕ}
    (hrows : ∀ i ∈ rows, i + limit < 2 ^ 64) (hprevious : Bounded limit previous)
    {current : ℕ → ℕ} (hcurrent : Bounded limit current) (cells cells' : ℕ) :
  (bandRows x y limit rows previous current cells).1 =
    (Headings.bandRows x y limit rows previous current cells').1
  := by
  induction rows generalizing previous current cells cells' with
  | nil => rw [bandRows, Headings.bandRows, overLimit_eq hlimit]
  | cons i rows ih =>
    obtain ⟨hi, hrest⟩ := forall_mem_cons.mp hrows
    obtain ⟨hrow, hbounded⟩ := @bandRow_eq x y limit i previous hlimit hi hprevious current hcurrent
    rw [bandRows, Headings.bandRows, hrow, overLimit_eq hlimit]
    split
    · rfl
    · exact ih hrest hbounded hprevious _ _

/-- Below the wrap the result is that of the sums of numbers. -/
theorem bandDistance_eq (hlimit : limit + 2 < 2 ^ 64) (hrows : x.length + limit < 2 ^ 64)
    (cells : ℕ) :
  (bandDistance x y limit cells).1 = (Headings.bandDistance x y limit cells).1
  := by
  rw [bandDistance, Headings.bandDistance, overLimit_eq hlimit]
  split
  · rfl
  · apply bandRows_eq hlimit
    · intro i hi
      have hle := (mem_range'_1.mp hi).2
      omega
    · intro j
      dsimp only
      split
      · omega
      · exact le_rfl
    · exact fun _ => le_rfl

end

/-! ### A limit above the width -/

/-- A row holds the distances, in every column. -/
def Holds (x y : List UInt8) (i : ℕ) (row : ℕ → ℕ) : Prop :=
  ∀ j ≤ y.length, row j = distance x y i j

theorem distance_le_max (x y : List UInt8) (i j : ℕ) :
  distance x y i j ≤ max i j
  := by
  induction i generalizing j with
  | zero =>
    rw [distance_zero]
    exact le_max_right _ _
  | succ i ih =>
    cases j with
    | zero =>
      rw [distance_succ_zero]
      exact le_max_left _ _
    | succ j =>
      have hdiagonal := ih j
      have hmismatch : mismatch x y i j ≤ 1 := by
        rw [mismatch]
        split
        · exact zero_le _
        · exact le_rfl
      rw [distance_succ_succ]
      omega

section

variable {x y : List UInt8} {limit i : ℕ} {previous current : ℕ → ℕ}

/-- Behind some cells of a row these are the distances, and the least cell is within the limit. -/
theorem bandCells_full (hwidth : y.length ≤ limit) (hsmall : y.length < 2 ^ 63)
    (hlimit : limit + 1 < 2 ^ 64) (hi : i < y.length) (hprevious : Holds x y i previous) {count : ℕ}
    (hcount : count ≤ y.length) :
  let state := (List.range' 1 count).foldl (bandCell x y limit (i + 1) previous)
    { current := Function.update current 0 (i + 1), rowMinimum := i + 1 }
  (∀ j ≤ count, state.current j = distance x y (i + 1) j) ∧ state.rowMinimum ≤ limit
  := by
  induction count with
  | zero =>
    refine ⟨?_, ?_⟩
    · intro j hj
      obtain rfl := le_zero.mp hj
      simp
    · exact (succ_le_of_lt hi).trans hwidth
  | succ count ih =>
    obtain ⟨hleft, hminimum⟩ := ih (by omega)
    rw [range'_1_concat, foldl_append]
    generalize (range' 1 count).foldl (bandCell x y limit (i + 1) previous)
      { current := update current 0 (i + 1), rowMinimum := i + 1 } = state at hleft hminimum
    have hvalue : (bandCell x y limit (i + 1) previous state (1 + count)).current (count + 1) =
        distance x y (i + 1) (count + 1) := by
      have hup := hprevious (count + 1) hcount
      have hdiagonal := hprevious count (by omega)
      have hback := hleft count le_rfl
      have hup_le := distance_le_max x y i (count + 1)
      have hdiagonal_le := distance_le_max x y i count
      have hback_le := distance_le_max x y (i + 1) count
      have hlast_le := distance_le_max x y (i + 1) (count + 1)
      have hover : overLimit limit = limit + 1 := wrap_of_lt hlimit
      have hmismatch : mismatch x y i count ≤ 1 := by
        rw [mismatch]
        split
        · exact zero_le _
        · exact le_rfl
      have hcell : (bandCell x y limit (i + 1) previous state (1 + count)).current (count + 1) =
          min (min (min (wrap (previous (count + 1) + 1)) (wrap (state.current count + 1)))
            (wrap (previous count + mismatch x y i count))) (overLimit limit) := by
        rw [add_comm 1 count]
        simp [bandCell, mismatch]
      rw [hcell, hup, hdiagonal, hback, hover, wrap_of_lt (by omega), wrap_of_lt (by omega),
        wrap_of_lt (by omega), ← distance_succ_succ]
      omega
    refine ⟨?_, (min_le_left _ _).trans hminimum⟩
    intro j hj
    rcases lt_or_ge j (count + 1) with hlt | hge
    · have hne : j ≠ 1 + count := by omega
      simpa [bandCell, update_of_ne hne] using hleft j (by omega)
    · obtain rfl : j = count + 1 := by omega
      exact hvalue

/-- A row whose bound does not wrap is full, and is gone past. -/
theorem bandRow_full (hwidth : y.length ≤ limit) (hsmall : y.length < 2 ^ 63)
    (hlimit : limit + 1 < 2 ^ 64) (hi : i < y.length) (hsum : i + 1 + limit < 2 ^ 64)
    (hprevious : Holds x y i previous) :
  Holds x y (i + 1) (bandRow x y limit (i + 1) previous current).current ∧
    (bandRow x y limit (i + 1) previous current).rowMinimum ≤ limit
  := by
  have hlow : bandLow (i + 1) limit = 1 := if_neg (by omega)
  have hhigh : bandHigh y.length (i + 1) limit = y.length := by
    rw [bandHigh, wrap_of_lt hsum]
    omega
  have hrow := @bandCells_full x y limit i previous current hwidth hsmall hlimit hi hprevious _ le_rfl
  rw [bandRow, hlow, hhigh, if_neg (lt_irrefl _), Nat.add_sub_cancel,
    if_pos ⟨rfl, by omega⟩]
  exact hrow

/-- The rows whose bounds do not wrap, and those behind them. -/
theorem bandRows_full (hwidth : y.length ≤ limit) (hsmall : y.length < 2 ^ 63)
    (hlimit : limit + 1 < 2 ^ 64) (rest : List ℕ) {count : ℕ} (hcount : i + count ≤ y.length)
    (hsum : i + count + limit < 2 ^ 64) (hprevious : Holds x y i previous)
    (hcurrent : 0 < i → Holds x y (i - 1) current) (cells : ℕ) :
  ∃ previous' current' cells', Holds x y (i + count) previous' ∧
    (0 < i + count → Holds x y (i + count - 1) current') ∧
    bandRows x y limit (List.range' (i + 1) count ++ rest) previous current cells =
      bandRows x y limit rest previous' current' cells'
  := by
  induction count generalizing i previous current cells with
  | zero => exact ⟨previous, current, cells, hprevious, hcurrent, rfl⟩
  | succ count ih =>
    obtain ⟨hrow, hminimum⟩ := @bandRow_full x y limit i previous current hwidth hsmall hlimit
      (by omega) (by omega) hprevious
    rw [range'_succ, cons_append, bandRows]
    rw [if_neg (by omega), show i + (count + 1) = i + 1 + count by omega]
    exact ih (by omega) (by omega) hrow (fun _ => hprevious) _

/-! ### Rows that wrap -/

theorem bandCells_stale {columns : List ℕ} {state : BandRow} {j : ℕ} (hj : j ∉ columns) :
  (columns.foldl (bandCell x y limit i previous) state).current j = state.current j ∧
    (columns.foldl (bandCell x y limit i previous) state).rowMinimum ≤ state.rowMinimum
  := by
  induction columns generalizing state with
  | nil => exact ⟨rfl, le_rfl⟩
  | cons column columns ih =>
    rw [mem_cons, not_or] at hj
    obtain ⟨hcurrent, hminimum⟩ := @ih (bandCell x y limit i previous state column) hj.2
    refine ⟨hcurrent.trans ?_, hminimum.trans (min_le_left _ _)⟩
    exact update_of_ne hj.1 _ _

/-- A row whose bound wraps leaves the last cell of its buffer as it is, and is gone past. -/
theorem bandRow_stale (hi : i ≤ limit) (hsum : 2 ^ 64 ≤ i + limit)
    (hsmall : i + limit + 1 < 2 ^ 64 + y.length) (hlength : y.length < 2 ^ 63) :
  (bandRow x y limit i previous current).current y.length = current y.length ∧
    (bandRow x y limit i previous current).rowMinimum ≤ limit
  := by
  have hlow : bandLow i limit = 1 := if_neg (by omega)
  obtain ⟨high, hhigh, hbehind⟩ : ∃ high, bandHigh y.length i limit = high ∧
      high + 1 < y.length := by
    have hwrap : wrap (i + limit) = i + limit - 2 ^ 64 := by
      rw [wrap, Nat.mod_eq_sub_mod hsum, Nat.mod_eq_of_lt (by omega)]
    refine ⟨_, rfl, ?_⟩
    rw [bandHigh, hwrap]
    omega
  have hcolumn : y.length ∉ range' 1 high := by
    rw [mem_range'_1]
    omega
  obtain ⟨hcurrent, hminimum⟩ := @bandCells_stale x y limit i previous _
    { current := update current (1 - 1) i, rowMinimum := i } _ hcolumn
  rw [bandRow, hlow, hhigh, if_pos (by omega), if_pos ⟨rfl, hi⟩, Nat.add_sub_cancel]
  refine ⟨?_, hminimum.trans hi⟩
  dsimp only
  rw [update_of_ne (by omega), hcurrent]
  exact update_of_ne (by omega) _ _

/-- The buffers change places, and keep their last cells. -/
theorem bandRows_stale {count : ℕ} (hlast : i + count ≤ limit + 1) (hsum : 2 ^ 64 ≤ i + limit)
    (hsmall : i + count + limit < 2 ^ 64 + y.length) (hlength : y.length < 2 ^ 63) (cells : ℕ) :
  (bandRows x y limit (List.range' i count) previous current cells).1 =
    min (if count % 2 = 0 then previous y.length else current y.length) (overLimit limit)
  := by
  induction count generalizing i previous current cells with
  | zero => rfl
  | succ count ih =>
    obtain ⟨hlastCell, hminimum⟩ := @bandRow_stale x y limit i previous current (by omega) hsum (by omega)
      hlength
    rw [range'_succ, bandRows]
    rw [if_neg (by omega), ih (by omega) (by omega) (by omega), hlastCell]
    rcases mod_two_eq_zero_or_one count with heven | hodd
    · rw [if_pos heven, if_neg (by omega)]
    · rw [if_neg (by omega), if_pos (by omega)]

end

/-! ### When the limit is kept -/

/-- The row whose last cell is returned, when the bounds wrap from some row on. -/
def staleRow (rows limit : ℕ) : ℕ :=
  let first := 2 ^ 64 - limit
  if (rows - first) % 2 = 0 then first - 2 else first - 1

/-- The bounds of the rows do not wrap, or the row that is returned has the same distance; behind the
largest limit is zero, which only equal texts are apart. -/
def MeetsLimit (x y : List UInt8) (limit : ℕ) : Prop :=
  if limit = 2 ^ 64 - 1 then x = y
  else limit + x.length < 2 ^ 64 ∨
    distance x y (staleRow x.length limit) y.length = distance x y x.length y.length

/-- Nothing that is returned is over. -/
theorem bandRows_le_over (x y : List UInt8) (limit : ℕ) (rows : List ℕ) (previous current : ℕ → ℕ)
    (cells : ℕ) :
  (bandRows x y limit rows previous current cells).1 ≤ overLimit limit
  := by
  induction rows generalizing previous current cells with
  | nil => exact min_le_right _ _
  | cons i rows ih =>
    rw [bandRows]
    split
    · exact le_rfl
    · exact ih _ _ _

theorem bandDistance_le_over (x y : List UInt8) (limit cells : ℕ) :
  (bandDistance x y limit cells).1 ≤ overLimit limit
  := by
  rw [bandDistance]
  split
  · exact le_rfl
  · exact bandRows_le_over x y limit _ _ _ cells

section

variable {x y : List UInt8} {limit : ℕ}

theorem holds_zero (hwidth : y.length ≤ limit) :
  Holds x y 0 (fun j => if j ≤ min y.length limit then j else overLimit limit)
  := by
  intro j hj
  dsimp only
  rw [if_pos (by omega), distance_zero]

/-- Above the width, and without a wrap, the distance is returned. -/
theorem bandDistance_full (hlength : x.length ≤ y.length) (hsmall : y.length < 2 ^ 63)
    (hwidth : y.length ≤ limit) (hlimit : limit + 1 < 2 ^ 64) (hsum : x.length + limit < 2 ^ 64)
    (cells : ℕ) :
  (bandDistance x y limit cells).1 = distance x y x.length y.length
  := by
  obtain ⟨previous, current, cells', hprevious, -, hrows⟩ :=
    bandRows_full hwidth hsmall hlimit [] (show 0 + x.length ≤ y.length by omega) (by omega)
      (holds_zero hwidth) (fun hpos => absurd hpos (lt_irrefl 0)) cells
  rw [append_nil, zero_add] at hrows
  have hle := distance_le_max x y x.length y.length
  rw [bandDistance, if_neg (by omega), hrows, bandRows, hprevious _ le_rfl, zero_add,
    show overLimit limit = limit + 1 from wrap_of_lt hlimit]
  dsimp only
  omega

/-- Behind a wrap the last cell of an earlier row is returned. -/
theorem bandDistance_stale (hlength : x.length ≤ y.length) (hsmall : y.length < 2 ^ 63)
    (hlimit : limit + 1 < 2 ^ 64) (hsum : 2 ^ 64 ≤ x.length + limit) (cells : ℕ) :
  (bandDistance x y limit cells).1 = distance x y (staleRow x.length limit) y.length
  := by
  have hwidth : y.length ≤ limit := by omega
  -- The rows up to the first that wraps, and those from it on.
  obtain ⟨first, hfirst⟩ : ∃ first, first + 1 + limit = 2 ^ 64 :=
    ⟨2 ^ 64 - limit - 1, by omega⟩
  have hsplit : range' 1 x.length =
      range' (0 + 1) first ++ range' (first + 1) (x.length - first) := by
    rw [show first + 1 = 0 + 1 + 1 * first by omega, range'_append,
      show first + (x.length - first) = x.length by omega]
  obtain ⟨previous, current, cells', hprevious, hcurrent, hrows⟩ :=
    bandRows_full hwidth hsmall hlimit (range' (first + 1) (x.length - first))
      (show 0 + first ≤ y.length by omega) (by omega)
      (holds_zero hwidth) (fun hpos => absurd hpos (lt_irrefl 0)) cells
  rw [zero_add] at hprevious hcurrent
  have hstale := @bandRows_stale x y limit (first + 1) previous current (x.length - first)
    (by omega) (by omega) (by omega) hsmall cells'
  rw [bandDistance, if_neg (by omega), hsplit, hrows, hstale, hprevious _ le_rfl,
    hcurrent (by omega) _ le_rfl, show overLimit limit = limit + 1 from wrap_of_lt hlimit]
  have hle := distance_le_max x y first y.length
  have hle' := distance_le_max x y (first - 1) y.length
  have hrow : staleRow x.length limit =
      if (x.length - first) % 2 = 0 then first else first - 1 := by
    rw [staleRow, show 2 ^ 64 - limit = first + 1 by omega]
    split
    · rw [if_neg (by omega)]
      omega
    · rw [if_pos (by omega)]
      omega
  rw [hrow]
  split
  · omega
  · omega

/-- The distance of the texts, the first of which is not longer, is cut off behind the limit exactly
when the limit is met. -/
theorem bandDistance_eq_iff (hlength : x.length ≤ y.length) (hsmall : y.length < 2 ^ 63)
    (hlimit : limit < 2 ^ 64) (cells : ℕ) :
  (bandDistance x y limit cells).1 = min (distance x y x.length y.length) (limit + 1) ↔
    MeetsLimit x y limit
  := by
  have hle := distance_le_max x y x.length y.length
  rw [MeetsLimit]
  split
  case isTrue hlast =>
    have hover : overLimit limit = 0 := by
      rw [overLimit, hlast]
      rfl
    have hzero := le_zero.mp (hover ▸ bandDistance_le_over x y limit cells)
    rw [hzero, ← distance_eq_zero_iff]
    omega
  case isFalse hlast =>
    by_cases hsum : limit + x.length < 2 ^ 64
    · refine iff_of_true ?_ (.inl hsum)
      by_cases hwidth : y.length ≤ limit
      · rw [bandDistance_full hlength hsmall hwidth (by omega) (by omega) cells]
        omega
      · rw [bandDistance_eq (by omega) (by omega), Headings.bandDistance_eq hlength]
    · rw [bandDistance_stale hlength hsmall (by omega) (by omega) cells, or_iff_right hsum]
      omega

end

end GRParse.Headings.SizeT
