import GRParse.Render.GridReach

/-!
# Placing the cells of a table

The cells of a table are placed one after the other, on a grid that is a rectangle.  A cell that
reaches anything is written at the first position it reaches, and at the others if the budget pays
for them.
-/

namespace GRParse.Grids

open List Option

/-! ### Rectangles -/

/-- The grid of a function. -/
def rect (rows cols : ℕ) (f : ℕ → ℕ → Option TableCell) : Grid :=
  (List.range rows).map fun row => (List.range cols).map (f row)

theorem blank_eq_rect (rows cols : ℕ) :
  blank rows cols = rect rows cols fun _ _ => none
  := by
  simp [blank, rect, map_const']

/-- What a grid shows once a cell has been written. -/
def writeAt (cell : TableCell) (positions : List Position) (f : ℕ → ℕ → Option TableCell) :
    ℕ → ℕ → Option TableCell :=
  fun row col => if ((row : ℤ), (col : ℤ)) ∈ positions then some cell else f row col

/-- A position is inside a rectangle. -/
def Inside (rows cols : ℕ) (position : Position) : Prop :=
  (0 ≤ position.1 ∧ position.1 < rows) ∧ 0 ≤ position.2 ∧ position.2 < cols

theorem write_rect {rows cols : ℕ} (cell : TableCell) (f : ℕ → ℕ → Option TableCell)
    {position : Position} (h : Inside rows cols position) :
  write cell (rect rows cols f) position = some (rect rows cols (writeAt cell [position] f))
  := by
  obtain ⟨row, col⟩ := position
  obtain ⟨⟨hrow, hrows⟩, hcol, hcols⟩ := h
  lift row to ℕ using hrow
  lift col to ℕ using hcol
  simp only [Nat.cast_lt] at hrows hcols
  have hline : (rect rows cols f)[row]? = some ((range cols).map (f row)) := by
    simp [rect, hrows]
  rw [write, if_neg (by simp only; omega)]
  simp only [Int.toNat_natCast, hline, bind_eq_bind, bind_some, length_map,
    length_range, if_pos hcols]
  congr 1
  apply ext_getElem?
  intro i
  rw [getElem?_set]
  by_cases hi : i < rows
  case neg => simp [rect, hi]; omega
  obtain rfl | hother := eq_or_ne row i
  · simp only [if_true, rect, length_map, length_range, hi, getElem?_map,
      getElem?_range hi, map_some]
    congr 1
    apply ext_getElem?
    intro j
    rw [getElem?_set]
    by_cases hj : j < cols
    case neg => simp [hj]; omega
    obtain rfl | hother := eq_or_ne col j
    · simp [writeAt, hj]
    · have hne : ¬ j = col := fun h => hother h.symm
      simp [writeAt, hj, hother, hne]
  · have hne : ¬ i = row := fun h => hother h.symm
    simp [rect, writeAt, hi, hother, hne]

theorem foldlM_write_rect {rows cols : ℕ} (cell : TableCell) (positions : List Position)
    (f : ℕ → ℕ → Option TableCell) (h : ∀ position ∈ positions, Inside rows cols position) :
  positions.foldlM (write cell) (rect rows cols f) =
    some (rect rows cols (writeAt cell positions f))
  := by
  induction positions generalizing f with
  | nil =>
    have hnothing : writeAt cell [] f = f := by
      funext row col
      simp [writeAt]
    rw [hnothing]
    rfl
  | cons position positions ih =>
    obtain ⟨hfirst, hrest⟩ := forall_mem_cons.mp h
    rw [foldlM_cons, write_rect cell f hfirst, bind_eq_bind, bind_some,
      ih _ hrest]
    congr 2
    funext row col
    simp only [writeAt, mem_cons, not_mem_nil, or_false]
    by_cases hlater : ((row : ℤ), (col : ℤ)) ∈ positions
    · simp [hlater]
    · simp [hlater]

/-! ### Paying -/

/-- Some repeats are paid, and the bytes they repeat. -/
structure Pays (budget budget' : GridBudget) (repeats bytes : ℕ) : Prop where
  remaining : budget'.remaining = budget.remaining
  positions : budget'.repeatPositions + repeats = budget.repeatPositions
  bytes : budget'.repeatBytes + bytes = budget.repeatBytes

theorem Pays.trans {first second third : GridBudget} {repeats repeats' bytes bytes' : ℕ}
    (h : Pays first second repeats bytes) (h' : Pays second third repeats' bytes') :
  Pays first third (repeats + repeats') (bytes + bytes')
  := by
  obtain ⟨hremaining, hpositions, hbytes⟩ := h
  obtain ⟨hremaining', hpositions', hbytes'⟩ := h'
  constructor <;> omega

/-- Repeats are paid, or nothing is. -/
theorem spendRepeats_spec (budget : GridBudget) (repeats bytes : ℕ) :
  ∃ paid budget', budget.spendRepeats repeats bytes = some (paid, budget') ∧
    if paid then Pays budget budget' repeats (repeats * bytes) else budget' = budget
  := by
  rw [GridBudget.spendRepeats]
  split
  case isTrue h =>
    obtain rfl : repeats = 0 := by omega
    exact ⟨true, budget, rfl, rfl, rfl, by simp⟩
  split
  case isTrue => exact ⟨false, budget, rfl, rfl⟩
  split
  case isTrue => exact ⟨false, budget, rfl, rfl⟩
  case isFalse hsome hpositions hbytes =>
    have hpositions : repeats ≤ budget.repeatPositions := by omega
    have hcost : repeats * bytes ≤ budget.repeatBytes := by
      obtain rfl | hpos := Nat.eq_zero_or_pos bytes
      · simp
      · rw [← Nat.le_div_iff_mul_le hpos]
        by_contra hmore
        exact hbytes ⟨hpos, by exact_mod_cast not_le.mp hmore⟩
    have hmax := budget.repeatBytes_le
    have hfits : asInt64 (repeats * bytes) = some ((repeats * bytes : ℕ) : ℤ) := by
      rw [← Nat.cast_mul]
      apply asInt64_of_fits
      unfold kDocumentRepeatBytes at hmax
      omega
    rw [hfits]
    refine ⟨true, _, rfl, rfl, ?_, ?_⟩
    · exact Nat.sub_add_cancel hpositions
    · exact Nat.sub_add_cancel hcost

/-! ### Placing -/

/-- The positions of some rows and columns, row by row. -/
def positionsOf (rows cols : List ℤ) : List Position :=
  rows.flatMap fun row => cols.map fun col => (row, col)

/-- A cell that reaches some positions has been placed: nowhere when these are none, else at all of
them when the budget pays for that, and at the first one when it does not. -/
inductive Placed (cell : TableCell) (reached : List Position) (sheet : Sheet) : Sheet → Prop
  | skipped (none : reached = []) : Placed cell reached sheet sheet
  | wrote {sheet' : Sheet} {paid : Bool} {budget : GridBudget} (some : reached ≠ [])
      (spends : sheet.budget.spendRepeats (reached.length - 1 : ℕ) cell.text.length =
        .some (paid, budget))
      (budget : sheet'.budget = if paid then budget else budget.truncate)
      (kept : sheet'.kept = sheet.kept)
      (writes : sheet'.writes =
        sheet.writes ++ [(cell, if paid then reached else reached.take 1)])
      (grid : (if paid then reached else reached.take 1).foldlM (write cell) sheet.grid =
        .some sheet'.grid) :
      Placed cell reached sheet sheet'

theorem Reach.Covers.length_lt {reach : Reach} {indexes : List ℤ} (h : reach.Covers indexes) :
  indexes.length < 2 ^ 31
  := by
  have hcount := h.count
  rw [Reach.count] at hcount
  simp only [bind_eq_bind, bind_eq_some_iff] at hcount
  obtain ⟨wrapped, -, direct, -, hsum⟩ := hcount
  rw [asInt] at hsum
  split at hsum
  case isTrue hfits =>
    have heq := some.inj hsum
    unfold intMax at hfits
    omega
  case isFalse => cases hsum

section

variable {rowReach colReach : Reach} {rows cols : List ℤ}

theorem visits_eq (hrows : rowReach.Covers rows) (hcols : colReach.Covers cols) :
  visits rowReach colReach = positionsOf rows cols
  := by
  rw [visits, hrows.each, hcols.each, positionsOf]

/-- The first position of a visit. -/
theorem first_eq (hrows : rowReach.Covers rows) (hcols : colReach.Covers cols)
    (hsome : positionsOf rows cols ≠ []) :
  [(rowReach.first, colReach.first)] = (positionsOf rows cols).take 1
  := by
  cases rows with
  | nil => exact absurd rfl hsome
  | cons row rows =>
    cases cols with
    | nil => exact absurd (by simp [positionsOf]) hsome
    | cons col cols =>
      rw [Reach.first_of_each hrows.each, Reach.first_of_each hcols.each]
      rfl

theorem placeCell_spec (sheet : Sheet) (cell : TableCell) (hrows : rowReach.Covers rows)
    (hcols : colReach.Covers cols) {height width : ℕ} {f : ℕ → ℕ → Option TableCell}
    (hgrid : sheet.grid = rect height width f)
    (hinside : ∀ position ∈ positionsOf rows cols, Inside height width position) :
  ∃ sheet', placeCell sheet cell rowReach colReach = some sheet' ∧
    Placed cell (positionsOf rows cols) sheet sheet'
  := by
  have hrowsLt := hrows.length_lt
  have hcolsLt := hcols.length_lt
  have hlength : (positionsOf rows cols).length = rows.length * cols.length := by
    simp [positionsOf, length_flatMap]
  have hproduct : rows.length * cols.length < 2 ^ 62 :=
    lt_of_lt_of_le (Nat.mul_lt_mul'' hrowsLt hcolsLt) (by norm_num)
  have hcovered : asInt64 ((rows.length : ℤ) * cols.length) =
      some ((positionsOf rows cols).length : ℤ) := by
    rw [← Nat.cast_mul, ← hlength]
    apply asInt64_of_fits
    omega
  rw [placeCell, hrows.count, hcols.count, bind_eq_bind, bind_some,
    bind_eq_bind, bind_some, hcovered, bind_eq_bind, bind_some]
  split
  case isTrue hnone =>
    have hreached : positionsOf rows cols = [] := length_eq_zero_iff.mp (by omega)
    exact ⟨sheet, rfl, .skipped hreached⟩
  case isFalse hsome =>
    have hreached : positionsOf rows cols ≠ [] := by
      intro hnil
      rw [hnil] at hsome
      simp at hsome
    have hpos := length_pos_iff.mpr hreached
    have hcast : ((positionsOf rows cols).length : ℤ) - 1 =
        (((positionsOf rows cols).length - 1 : ℕ) : ℤ) := by
      omega
    have hrepeats : asInt64 ((positionsOf rows cols).length - 1 : ℤ) =
        some (((positionsOf rows cols).length - 1 : ℕ) : ℤ) := by
      rw [asInt64_of_fits (by omega), hcast]
    obtain ⟨paid, budget, hspends, -⟩ := spendRepeats_spec sheet.budget
      ((positionsOf rows cols).length - 1) cell.text.length
    rw [hrepeats, bind_some, hspends, bind_some]
    have hwritten : (if paid then (visits rowReach colReach, budget)
          else ([(rowReach.first, colReach.first)], budget.truncate)) =
        (if paid then positionsOf rows cols else (positionsOf rows cols).take 1,
          if paid then budget else budget.truncate) := by
      rw [visits_eq hrows hcols, first_eq hrows hcols hreached]
      cases paid <;> rfl
    have hsome : ∃ grid, (if paid then positionsOf rows cols else
        (positionsOf rows cols).take 1).foldlM (write cell) sheet.grid = some grid := by
      refine ⟨_, hgrid ▸ foldlM_write_rect cell _ f fun position hposition => ?_⟩
      apply hinside
      split at hposition
      · exact hposition
      · exact mem_of_mem_take hposition
    obtain ⟨grid, hwrite⟩ := hsome
    refine ⟨{ sheet with
      grid
      budget := if paid then budget else budget.truncate
      writes := sheet.writes ++ [(cell, if paid then positionsOf rows cols else
        (positionsOf rows cols).take 1)] }, ?_, .wrote hreached hspends rfl rfl rfl hwrite⟩
    simp only [hwritten, hwrite, bind_some]
    rfl

end

/-! ### All cells of a table -/

/-- Cells have been placed, one after the other. -/
inductive Run (reached : TableCell → List Position) : Sheet → List TableCell → Sheet → Prop
  | nil {sheet : Sheet} : Run reached sheet [] sheet
  | cons {sheet middle sheet' : Sheet} {cell : TableCell} {cells : List TableCell}
      (first : Placed cell (reached cell) sheet middle) (rest : Run reached middle cells sheet') :
      Run reached sheet (cell :: cells) sheet'

/-- What a grid shows after some writes. -/
def contents (writes : List (TableCell × List Position)) (f : ℕ → ℕ → Option TableCell) :
    ℕ → ℕ → Option TableCell :=
  writes.foldl (fun f entry => writeAt entry.1 entry.2 f) f

/-- The writes beyond the first one of a cell. -/
def repeatsOf (writes : List (TableCell × List Position)) : ℕ :=
  (writes.map fun entry => entry.2.length - 1).sum

/-- The bytes of their texts. -/
def repeatedBytesOf (writes : List (TableCell × List Position)) : ℕ :=
  (writes.map fun entry => (entry.2.length - 1) * entry.1.text.length).sum

/-- A cell has been written at all positions it reaches, or at the first one. -/
def WrittenAt (reached : TableCell → List Position) (cell : TableCell)
    (entry : TableCell × List Position) : Prop :=
  entry.1 = cell ∧ (entry.2 = reached cell ∨ entry.2 = (reached cell).take 1)

variable {reached : TableCell → List Position} {height width : ℕ}

/-- Every cell that reaches anything has been written, and its repeats have been paid. -/
theorem Run.spec {sheet sheet' : Sheet} {cells : List TableCell}
    (h : Run reached sheet cells sheet')
    (hinside : ∀ cell, ∀ position ∈ reached cell, Inside height width position)
    {f : ℕ → ℕ → Option TableCell} (hgrid : sheet.grid = rect height width f) :
  ∃ writes, sheet'.writes = sheet.writes ++ writes ∧
    List.Forall₂ (WrittenAt reached) (cells.filter (reached · ≠ [])) writes ∧
    Pays sheet.budget sheet'.budget (repeatsOf writes) (repeatedBytesOf writes) ∧
    sheet'.kept = sheet.kept ∧ sheet'.grid = rect height width (contents writes f)
  := by
  induction h generalizing f with
  | nil => exact ⟨[], (append_nil _).symm, .nil, ⟨rfl, rfl, rfl⟩, rfl, hgrid⟩
  | @cons sheet middle sheet' cell cells first rest ih =>
    cases first with
    | skipped none =>
      obtain ⟨writes, hwrites, hwritten, hpays, hkept, hgrid'⟩ := ih hgrid
      refine ⟨writes, hwrites, ?_, hpays, hkept, hgrid'⟩
      rwa [filter_cons_of_neg (by simp [none])]
    | @wrote _ paid budget some spends hbudget kept entries grid =>
      have hpositions : ∀ position ∈ (if paid then reached cell else (reached cell).take 1),
          Inside height width position := by
        intro position hposition
        apply hinside cell
        split at hposition
        · exact hposition
        · exact mem_of_mem_take hposition
      have hmiddle : middle.grid = rect height width
          (writeAt cell (if paid then reached cell else (reached cell).take 1) f) := by
        rw [hgrid, foldlM_write_rect cell _ f hpositions] at grid
        exact (Option.some.inj grid).symm
      obtain ⟨writes, hwrites, hwritten, hpays, hkept, hgrid'⟩ := ih hmiddle
      refine ⟨(cell, if paid then reached cell else (reached cell).take 1) :: writes,
        by simp [hwrites, entries], ?_, ?_, hkept.trans kept, hgrid'⟩
      · rw [filter_cons_of_pos (by simp [some])]
        apply List.Forall₂.cons _ hwritten
        cases paid
        · exact ⟨rfl, .inr rfl⟩
        · exact ⟨rfl, .inl rfl⟩
      · obtain ⟨paid', budget', hspends, hpaid⟩ := spendRepeats_spec sheet.budget
          ((reached cell).length - 1) cell.text.length
        obtain ⟨rfl, rfl⟩ : paid = paid' ∧ budget = budget' := by
          simpa using spends.symm.trans hspends
        apply Pays.trans _ hpays
        rw [hbudget]
        cases paid with
        | true => exact hpaid
        | false =>
          obtain rfl : budget = sheet.budget := hpaid
          exact ⟨rfl, by simp [GridBudget.truncate], by simp [GridBudget.truncate]⟩

section

variable {rowReach colReach : TableCell → Option Reach}

/-- Cells that reach what they should are placed. -/
theorem placeCells_spec {rows cols : TableCell → List ℤ} {cells : List TableCell}
    (hreach : ∀ cell ∈ cells,
      (∃ reach, rowReach cell = some reach ∧ reach.Covers (rows cell)) ∧
        ∃ reach, colReach cell = some reach ∧ reach.Covers (cols cell))
    (hinside : ∀ cell, ∀ position ∈ positionsOf (rows cell) (cols cell),
      Inside height width position)
    (sheet : Sheet) {f : ℕ → ℕ → Option TableCell} (hgrid : sheet.grid = rect height width f) :
  ∃ sheet', placeCells rowReach colReach sheet cells = some sheet' ∧
    Run (fun cell => positionsOf (rows cell) (cols cell)) sheet cells sheet'
  := by
  induction cells generalizing sheet f with
  | nil => exact ⟨sheet, rfl, .nil⟩
  | cons cell cells ih =>
    obtain ⟨⟨⟨rowReach', hrow, hrows⟩, colReach', hcol, hcols⟩, hrest⟩ :=
      forall_mem_cons.mp hreach
    obtain ⟨middle, hplace, hplaced⟩ :=
      placeCell_spec sheet cell hrows hcols hgrid (hinside cell)
    have hone : Run (fun cell => positionsOf (rows cell) (cols cell)) sheet [cell] middle :=
      .cons hplaced .nil
    obtain ⟨writes, -, -, -, -, hmiddle⟩ := hone.spec hinside hgrid
    obtain ⟨sheet', hcells, hrun⟩ := ih hrest middle hmiddle
    refine ⟨sheet', ?_, .cons hplaced hrun⟩
    rw [placeCells, foldlM_cons, hrow, hcol]
    simp only [bind_eq_bind, bind_some, hplace]
    exact hcells

/-- A cell whose reach cannot be counted stops the rendering. -/
theorem placeCells_eq_none {cells : List TableCell} {cell : TableCell} (hcell : cell ∈ cells)
    (hfails : (rowReach cell).bind Reach.count = none ∨ (colReach cell).bind Reach.count = none)
    (sheet : Sheet) :
  placeCells rowReach colReach sheet cells = none
  := by
  have hstep : ∀ sheet : Sheet, (do
      let rows ← rowReach cell
      let cols ← colReach cell
      placeCell sheet cell rows cols) = none := by
    intro sheet
    cases hrow : rowReach cell with
    | none => rfl
    | some rowReach =>
      cases hcol : colReach cell with
      | none => rfl
      | some colReach =>
        simp only [hrow, hcol, bind_some] at hfails
        simp only [bind_eq_bind, bind_some]
        rw [placeCell]
        obtain hfails | hfails := hfails
        · rw [hfails]
          rfl
        · rw [hfails]
          cases rowReach.count <;> rfl
  induction cells generalizing sheet with
  | nil => cases hcell
  | cons first cells ih =>
    rw [placeCells, foldlM_cons]
    obtain rfl | hcell := mem_cons.mp hcell
    · rw [hstep]
      rfl
    · cases hfirst : (do
          let rows ← rowReach first
          let cols ← colReach first
          placeCell sheet first rows cols : Option Sheet) with
      | none => rfl
      | some middle => exact ih hcell middle

end

end GRParse.Grids
