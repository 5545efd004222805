import GRParse.Render.GridRuns

/-!
# The tables of a document

The tables of a document are rendered one after the other, from one budget.  What a table keeps
and what its cells repeat is paid for, so that the document stays within the budget.

Not all sums are safe.  The index behind the start of a flat cell may not be a number, and
neither may be the difference between the start of a range and an end long before it, or the
number of offsets before and behind zero.  `renderTables_bounded_iff` says when they all are.
-/

namespace GRParse.Grids

open List

/-! ### Dimensions -/

/-- The rows and columns that are kept have been paid for. -/
structure Keeps (rows cols : ℕ) (budget budget' : GridBudget) (kept : ℕ × ℕ) : Prop where
  rows_le : kept.1 ≤ rows
  cols_le : kept.2 ≤ cols
  positions_le : kept.1 * kept.2 ≤ kMaxGridPositions
  remaining : budget'.remaining + kept.1 * kept.2 = budget.remaining
  repeatPositions : budget'.repeatPositions = budget.repeatPositions
  repeatBytes : budget'.repeatBytes = budget.repeatBytes
  whole : rows * cols = 0 → kept = (rows, cols)
  sides_le : rows * cols ≠ 0 → kept.1 ≤ kMaxGridPositions ∧ kept.2 ≤ kMaxGridPositions

theorem keptDimensions_spec {rows cols : ℕ} (hrows : rows < 2 ^ 31) (hcols : cols < 2 ^ 31)
    (budget : GridBudget) :
  ∃ kept budget', keptDimensions rows cols budget = some (kept, budget') ∧
    Keeps rows cols budget budget' kept
  := by
  have hproduct : rows * cols < 2 ^ 62 :=
    lt_of_lt_of_le (Nat.mul_lt_mul'' hrows hcols) (by norm_num)
  have hpositions : asInt64 ((rows : ℤ) * cols) = some ((rows * cols : ℕ) : ℤ) := by
    rw [← Nat.cast_mul]
    apply asInt64_of_fits
    omega
  have hmax : min kMaxGridPositions budget.remaining ≤ kMaxGridPositions := min_le_left _ _
  have hremaining : min kMaxGridPositions budget.remaining ≤ budget.remaining := min_le_right _ _
  rw [keptDimensions, hpositions, Option.bind_eq_bind, Option.bind_some]
  generalize min kMaxGridPositions budget.remaining = allowance at hmax hremaining
  simp only [Nat.cast_le, Int.toNat_natCast]
  split
  case isTrue hfits =>
    refine ⟨(rows, cols), _, rfl, le_rfl, le_rfl, hfits.trans hmax, ?_, rfl, rfl, fun _ => rfl, ?_⟩
    · simp only [GridBudget.spend]
      omega
    · intro hsome
      obtain ⟨hrow, hcol⟩ := Nat.mul_ne_zero_iff.mp hsome
      constructor
      · exact (Nat.le_mul_of_pos_right rows (Nat.pos_of_ne_zero hcol)).trans (hfits.trans hmax)
      · exact (Nat.le_mul_of_pos_left cols (Nat.pos_of_ne_zero hrow)).trans (hfits.trans hmax)
  case isFalse hmore =>
    set keptCols := min cols allowance with hkeptCols
    set keptRows := if keptCols = 0 then 0 else allowance / keptCols with hkeptRows
    have hkept : keptRows * keptCols ≤ allowance := by
      rw [hkeptRows]
      split
      · simp
      · exact Nat.div_mul_le_self _ _
    have hrowsLe : keptRows ≤ rows := by
      rw [hkeptRows]
      split
      case isTrue => exact Nat.zero_le _
      case isFalse hcol =>
        obtain hcols | hcols := le_total cols allowance
        · rw [hkeptCols, min_eq_left hcols] at hcol ⊢
          apply Nat.div_le_of_le_mul
          rw [mul_comm]
          exact (not_le.mp hmore).le
        · rw [hkeptCols, min_eq_right hcols] at hcol ⊢
          rw [Nat.div_self (Nat.pos_of_ne_zero hcol)]
          by_contra hzero
          obtain rfl : rows = 0 := by omega
          simp at hmore
    have hpaid : asInt64 ((keptRows : ℤ) * keptCols) = some ((keptRows * keptCols : ℕ) : ℤ) := by
      rw [← Nat.cast_mul]
      apply asInt64_of_fits
      unfold kMaxGridPositions at hmax
      omega
    rw [hpaid, Option.bind_some]
    refine ⟨(keptRows, keptCols), _, rfl, hrowsLe, min_le_left _ _, hkept.trans hmax, ?_, rfl, rfl,
      ?_, ?_⟩
    · simp only [GridBudget.spend, GridBudget.truncate, Int.toNat_natCast]
      omega
    · intro hnone
      rw [hnone] at hmore
      simp at hmore
    · intro _
      refine ⟨?_, (min_le_right _ _).trans hmax⟩
      rw [hkeptRows]
      split
      · exact Nat.zero_le _
      · exact (Nat.div_le_self _ _).trans hmax

/-! ### Tables -/

/-- A table to render: from its grid or its flat cells, or as it is derived. -/
structure Job where
  data : TableData
  derived : Bool

namespace Job

def render (job : Job) (budget : GridBudget) : Option Sheet :=
  if job.derived then derivedTableGrid job.data budget else tableGrid job.data budget

/-- The rows that are declared. -/
def rows (job : Job) : ℕ :=
  (max job.data.numRows.toInt 0).toNat

/-- The columns that are declared. -/
def cols (job : Job) : ℕ :=
  (max job.data.numCols.toInt 0).toNat

/-- Whether the grid is taken as it is. -/
def Given (job : Job) : Prop :=
  job.derived = false ∧ job.data.grid ≠ []

instance (job : Job) : Decidable job.Given :=
  inferInstanceAs (Decidable (_ ∧ _))

/-- The cells to place. -/
def cells (job : Job) : List TableCell :=
  if job.Given then [] else job.data.tableCells

/-- The kept rows that a cell reaches, in order. -/
def rowsReached (job : Job) (kept : ℕ) (cell : TableCell) : List ℤ :=
  keep kept (if job.derived then rangeIndexes cell.startRow.toInt cell.endRow.toInt job.rows
    else flatIndexes cell.startRow.toInt cell.endRow.toInt)

/-- The kept columns that a cell reaches, in order. -/
def colsReached (job : Job) (kept : ℕ) (cell : TableCell) : List ℤ :=
  keep kept (if job.derived then rangeIndexes cell.startCol.toInt cell.endCol.toInt job.cols
    else flatIndexes cell.startCol.toInt cell.endCol.toInt)

/-- The kept positions that a cell reaches, in order. -/
def reached (job : Job) (kept : ℕ × ℕ) (cell : TableCell) : List Position :=
  positionsOf (job.rowsReached kept.1 cell) (job.colsReached kept.2 cell)

end Job

/-- The difference between the end and the start of a range is a number, and so is the count of its
offsets, which only other dimensions bound. -/
def Spans (start stop : ℤ) (size other : ℕ) : Prop :=
  -2 ^ 31 ≤ stop - max 0 (min start size) ∧
    (other = 0 → min stop size - max start (-size) < 2 ^ 31)

/-- The sums over the offsets of a table are numbers. -/
def Job.Fits (job : Job) : Prop :=
  if job.derived then
    ∀ cell ∈ job.data.tableCells,
      Spans cell.startRow.toInt cell.endRow.toInt job.rows job.cols ∧
        Spans cell.startCol.toInt cell.endCol.toInt job.cols job.rows
  else job.data.grid ≠ [] ∨ job.data.numRows.toInt ≤ 0 ∨ job.data.numCols.toInt ≤ 0 ∨
    ∀ cell ∈ job.data.tableCells, cell.startRow.toInt < intMax ∧ cell.startCol.toInt < intMax

/-- A table is rendered within its bounds.  Its grid is given, or shows what has been written, and
each cell that reaches a kept position has been written at the first one it reaches. -/
structure Shows (job : Job) (sheet : Sheet) : Prop where
  rows_le : sheet.grid.length ≤ sheet.kept.1
  cols_le : ∀ row ∈ sheet.grid, row.length ≤ sheet.kept.2
  positions_le : sheet.kept.1 * sheet.kept.2 ≤ kMaxGridPositions
  written : List.Forall₂ (WrittenAt (job.reached sheet.kept))
    (job.cells.filter (job.reached sheet.kept · ≠ [])) sheet.writes
  grid : sheet.grid =
    if job.Given then (job.data.grid.take sheet.kept.1).map fun row =>
      (row.take sheet.kept.2).map some
    else rect sheet.kept.1 sheet.kept.2 (contents sheet.writes fun _ _ => none)

/-- What a table costs. -/
structure Costs (budget : GridBudget) (sheet : Sheet) : Prop where
  positions : sheet.budget.remaining + sheet.kept.1 * sheet.kept.2 = budget.remaining
  repeats : sheet.budget.repeatPositions + repeatsOf sheet.writes = budget.repeatPositions
  bytes : sheet.budget.repeatBytes + repeatedBytesOf sheet.writes = budget.repeatBytes

theorem mem_positionsOf {rows cols : List ℤ} {position : Position} :
  position ∈ positionsOf rows cols ↔ position.1 ∈ rows ∧ position.2 ∈ cols
  := by
  simp only [positionsOf, mem_flatMap, mem_map]
  constructor
  · rintro ⟨row, hrow, col, hcol, rfl⟩
    exact ⟨hrow, hcol⟩
  · rintro ⟨hrow, hcol⟩
    exact ⟨_, hrow, _, hcol, rfl⟩

/-- Indexes are counted from the front, and stay within the size. -/
theorem bounds_of_mem_rangeIndexes {start stop index : ℤ} {size : ℕ}
    (h : index ∈ rangeIndexes start stop size) :
  0 ≤ index ∧ index < size
  := by
  obtain ⟨offset, -, hstop, hsize, rfl⟩ := mem_rangeIndexes.mp h
  rw [wrap]
  split <;> omega

theorem bounds_of_mem_keep {kept : ℕ} {indexes : List ℤ} (h : ∀ index ∈ indexes, 0 ≤ index) :
  ∀ index ∈ keep kept indexes, 0 ≤ index ∧ index < kept
  := by
  intro index hindex
  obtain ⟨hmem, hkept⟩ := mem_filter.mp hindex
  exact ⟨h index hmem, by simpa using hkept⟩

theorem Job.inside_of_reached (job : Job) (kept : ℕ × ℕ) (cell : TableCell) :
  ∀ position ∈ job.reached kept cell, Inside kept.1 kept.2 position
  := by
  have hflat : ∀ start stop : ℤ, ∀ index ∈ flatIndexes start stop, 0 ≤ index := by
    intro start stop index hindex
    have := mem_indexes.mp hindex
    simp only at this
    omega
  have hrange : ∀ (start stop : ℤ) (size : ℕ), ∀ index ∈ rangeIndexes start stop size,
      0 ≤ index := fun _ _ _ _ hindex => (bounds_of_mem_rangeIndexes hindex).1
  intro position hposition
  obtain ⟨hrow, hcol⟩ := mem_positionsOf.mp hposition
  refine ⟨bounds_of_mem_keep ?_ _ hrow, bounds_of_mem_keep ?_ _ hcol⟩
  · split
    · exact hrange _ _ _
    · exact hflat _ _
  · split
    · exact hrange _ _ _
    · exact hflat _ _

/-- The offsets can be counted when the sums over them are numbers. -/
theorem countable_iff {start stop : ℤ} {size kept other : ℕ} (hkept : kept ≤ size)
    (hwhole : other = 0 → kept = size) (hbounded : other ≠ 0 → kept ≤ kMaxGridPositions) :
  Countable start stop size kept ↔ Spans start stop size other
  := by
  have hlength : (keep kept (rangeIndexes start stop size)).length =
      (min (min stop 0 + size) kept - (max start (-size) + size)).toNat +
        (min stop kept - max start 0).toNat := by
    rw [keep_rangeIndexes _ _ hkept, length_append, length_indexes, length_indexes]
  rw [Countable, Spans, hlength]
  obtain hother | hother := eq_or_ne other 0
  · obtain rfl := hwhole hother
    simp only [hother, forall_const]
    omega
  · have hbound := hbounded hother
    unfold kMaxGridPositions at hbound
    simp only [hother, false_implies, and_true]
    omega

/-! ### One table -/

theorem length_rect (rows cols : ℕ) (f : ℕ → ℕ → Option TableCell) :
  (rect rows cols f).length = rows ∧ ∀ row ∈ rect rows cols f, row.length = cols
  := by
  constructor
  · simp [rect]
  · intro row hrow
    obtain ⟨index, -, rfl⟩ := mem_map.mp hrow
    simp

section

variable {job : Job} {budget start : GridBudget} {rows cols : ℕ} {kept : ℕ × ℕ} {sheet : Sheet}

/-- What has been kept and placed is paid for. -/
theorem shows_of_run (hgiven : ¬ job.Given) (hkeeps : Keeps rows cols budget start kept)
    (hrun : Run (job.reached kept) { grid := blank kept.1 kept.2, budget := start, kept }
      job.data.tableCells sheet) :
  Shows job sheet ∧ Costs budget sheet
  := by
  obtain ⟨writes, hwrites, hwritten, hpays, rfl, hgrid⟩ :=
    hrun.spec (job.inside_of_reached kept) (blank_eq_rect kept.1 kept.2)
  rw [nil_append] at hwrites
  subst hwrites
  obtain ⟨hlength, hlengths⟩ := length_rect sheet.kept.1 sheet.kept.2
    (contents sheet.writes fun _ _ => none)
  have hremaining := hkeeps.remaining
  have hrepeatPositions := hkeeps.repeatPositions
  have hrepeatBytes := hkeeps.repeatBytes
  obtain ⟨hpaid, hrepeats, hbytes⟩ := hpays
  simp only at hpaid hrepeats hbytes
  refine ⟨⟨?_, ?_, hkeeps.positions_le, ?_, ?_⟩, by omega, by omega, by omega⟩
  · rw [hgrid, hlength]
  · rw [hgrid]
    exact fun row hrow => (hlengths row hrow).le
  · rwa [Job.cells, if_neg hgiven]
  · rwa [if_neg hgiven]

theorem toNat_toInt_lt (value : Int32) :
  value.toInt.toNat < 2 ^ 31
  := by
  have := value.toInt_lt
  omega

/-- The cells of a derived table are placed exactly when its offsets can be counted. -/
theorem Job.run_derived (hderived : job.derived = true) (budget : GridBudget) :
  ∃ kept start, keptDimensions job.rows job.cols budget = some (kept, start) ∧
    Keeps job.rows job.cols budget start kept ∧
    (job.Fits → ∃ sheet, job.render budget = some sheet ∧
      Run (job.reached kept) { grid := blank kept.1 kept.2, budget := start, kept }
        job.data.tableCells sheet) ∧
    (¬ job.Fits → job.render budget = none)
  := by
  have hrowsLt : job.rows < 2 ^ 31 := by
    have := job.data.numRows.toInt_lt
    unfold Job.rows
    omega
  have hcolsLt : job.cols < 2 ^ 31 := by
    have := job.data.numCols.toInt_lt
    unfold Job.cols
    omega
  obtain ⟨kept, start, hkept, hkeeps⟩ := keptDimensions_spec hrowsLt hcolsLt budget
  have hrender : job.render budget = placeCells
      (fun cell => derivedReach cell.startRow cell.endRow job.rows kept.1)
      (fun cell => derivedReach cell.startCol cell.endCol job.cols kept.2)
      { grid := blank kept.1 kept.2, budget := start, kept } job.data.tableCells := by
    rw [Job.render, if_pos hderived, derivedTableGrid]
    change (keptDimensions job.rows job.cols budget).bind _ = _
    rw [hkept]
    rfl
  have hrows : ∀ cell : TableCell,
      Countable cell.startRow.toInt cell.endRow.toInt job.rows kept.1 ↔
        Spans cell.startRow.toInt cell.endRow.toInt job.rows job.cols := by
    intro cell
    apply countable_iff hkeeps.rows_le
    · exact fun hnone => congrArg Prod.fst (hkeeps.whole (by rw [hnone, Nat.mul_zero]))
    · intro hsome
      obtain hzero | hpos := Nat.eq_zero_or_pos job.rows
      · exact (hkeeps.rows_le.trans hzero.le).trans (Nat.zero_le _)
      · exact (hkeeps.sides_le (Nat.mul_ne_zero hpos.ne' hsome)).1
  have hcols : ∀ cell : TableCell,
      Countable cell.startCol.toInt cell.endCol.toInt job.cols kept.2 ↔
        Spans cell.startCol.toInt cell.endCol.toInt job.cols job.rows := by
    intro cell
    apply countable_iff hkeeps.cols_le
    · exact fun hnone => congrArg Prod.snd (hkeeps.whole (by rw [hnone, Nat.zero_mul]))
    · intro hsome
      obtain hzero | hpos := Nat.eq_zero_or_pos job.cols
      · exact (hkeeps.cols_le.trans hzero.le).trans (Nat.zero_le _)
      · exact (hkeeps.sides_le (Nat.mul_ne_zero hsome hpos.ne')).2
  have hrowReach := fun cell : TableCell =>
    derivedReach_spec cell.startRow cell.endRow hkeeps.rows_le hrowsLt
  have hcolReach := fun cell : TableCell =>
    derivedReach_spec cell.startCol cell.endCol hkeeps.cols_le hcolsLt
  rw [hrender]
  refine ⟨kept, start, hkept, hkeeps, ?_, ?_⟩
  · intro hfits
    rw [Job.Fits, if_pos hderived] at hfits
    exact @placeCells_spec kept.1 kept.2
      (fun cell => derivedReach cell.startRow cell.endRow job.rows kept.1)
      (fun cell => derivedReach cell.startCol cell.endCol job.cols kept.2)
      (job.rowsReached kept.1) (job.colsReached kept.2) job.data.tableCells (by
        intro cell hcell
        obtain ⟨hrow, hcol⟩ := hfits cell hcell
        have hrowReach := hrowReach cell
        have hcolReach := hcolReach cell
        rw [if_pos ((hrows cell).mpr hrow)] at hrowReach
        rw [if_pos ((hcols cell).mpr hcol)] at hcolReach
        rw [Job.rowsReached, Job.colsReached, if_pos hderived, if_pos hderived]
        exact ⟨hrowReach, hcolReach⟩)
      (job.inside_of_reached kept) { grid := blank kept.1 kept.2, budget := start, kept } _
      (blank_eq_rect kept.1 kept.2)
  · intro hfails
    rw [Job.Fits, if_pos hderived] at hfails
    push Not at hfails
    obtain ⟨cell, hcell, hfails⟩ := hfails
    apply placeCells_eq_none hcell
    by_cases hrow : Spans cell.startRow.toInt cell.endRow.toInt job.rows job.cols
    · have hcolReach := hcolReach cell
      rw [if_neg fun h => hfails hrow ((hcols cell).mp h)] at hcolReach
      exact .inr hcolReach
    · have hrowReach := hrowReach cell
      rw [if_neg fun h => hrow ((hrows cell).mp h)] at hrowReach
      exact .inl hrowReach

theorem Job.render_derived (hderived : job.derived = true) (budget : GridBudget) :
  (job.Fits → ∃ sheet, job.render budget = some sheet ∧ Shows job sheet ∧ Costs budget sheet) ∧
    (¬ job.Fits → job.render budget = none)
  := by
  have hgiven : ¬ job.Given := fun h => absurd h.1 (by simp [hderived])
  obtain ⟨kept, start, -, hkeeps, hrenders, hfails⟩ := Job.run_derived hderived budget
  refine ⟨fun hfits => ?_, hfails⟩
  obtain ⟨sheet, hrender, hrun⟩ := hrenders hfits
  exact ⟨sheet, hrender, shows_of_run hgiven hkeeps hrun⟩

/-- A given grid is cut to what is kept of it. -/
theorem Job.render_given (hgiven : job.Given) (budget : GridBudget) :
  ∃ sheet, job.render budget = some sheet ∧ Shows job sheet ∧ Costs budget sheet
  := by
  obtain ⟨hderived, hgrid⟩ := id hgiven
  have hwidest : ∀ (grid : List (List TableCell)) (widest : ℕ), widest ≤ intMax →
      (∀ row ∈ grid, row.length ≤ intMax) →
      grid.foldl (fun widest row => max widest row.length) widest ≤ intMax := by
    intro grid
    induction grid with
    | nil => exact fun widest hwidest _ => hwidest
    | cons row grid ih =>
      intro widest hwidest hrows
      obtain ⟨hrow, hrows⟩ := forall_mem_cons.mp hrows
      apply ih _ _ hrows
      push_cast
      exact max_le hwidest hrow
  have hrowsLt : job.data.grid.length < 2 ^ 31 := by
    have := job.data.length_grid
    unfold intMax at this
    omega
  have hcolsLt : job.data.grid.foldl (fun widest row => max widest row.length) 0 < 2 ^ 31 := by
    have := hwidest job.data.grid 0 (by decide) job.data.length_row
    unfold intMax at this
    omega
  obtain ⟨kept, start, hkept, hkeeps⟩ := keptDimensions_spec hrowsLt hcolsLt budget
  refine ⟨{
    grid := (job.data.grid.take kept.1).map fun row => (row.take kept.2).map some
    budget := start, kept }, ?_, ⟨?_, ?_, hkeeps.positions_le, ?_, ?_⟩, ?_⟩
  · rw [Job.render, if_neg (by simp [hderived]), tableGrid, if_pos (by simpa using hgrid)]
    simp only [hkept, Option.bind_eq_bind, Option.bind_some]
    rfl
  · simp
  · intro row hrow
    obtain ⟨given, -, rfl⟩ := mem_map.mp hrow
    simp
  · rw [Job.cells, if_pos hgiven]
    exact .nil
  · rw [if_pos hgiven]
  · have hremaining := hkeeps.remaining
    have hrepeatPositions := hkeeps.repeatPositions
    have hrepeatBytes := hkeeps.repeatBytes
    exact ⟨hremaining, hrepeatPositions, hrepeatBytes⟩

/-- A table of flat cells is rendered exactly when there is an index behind the start of each. -/
theorem Job.render_flat (hderived : job.derived = false) (hgrid : job.data.grid = [])
    (budget : GridBudget) :
  (job.Fits → ∃ sheet, job.render budget = some sheet ∧ Shows job sheet ∧ Costs budget sheet) ∧
    (¬ job.Fits → job.render budget = none)
  := by
  have hgiven : ¬ job.Given := fun h => h.2 hgrid
  have hempty : ¬ (!job.data.grid.isEmpty) := by simp [hgrid]
  by_cases hnone : job.data.numRows.toInt ≤ 0 ∨ job.data.numCols.toInt ≤ 0
  · have hfits : job.Fits := by
      rw [Job.Fits, if_neg (by simp [hderived])]
      exact .inr (or_assoc.mp (.inl hnone))
    refine ⟨fun _ => ⟨{ grid := [], budget }, ?_, ⟨le_rfl, nofun, Nat.zero_le _, ?_, ?_⟩, rfl, rfl,
      rfl⟩, fun hfails => absurd hfits hfails⟩
    · rw [Job.render, if_neg (by simp [hderived]), tableGrid, if_neg hempty]
      simp only [Option.bind_eq_bind, if_pos hnone]
      rfl
    · have hreached : ∀ cell, job.reached (0, 0) cell = [] := by
        intro cell
        rw [eq_nil_iff_forall_not_mem]
        intro position hposition
        have := job.inside_of_reached (0, 0) cell position hposition
        obtain ⟨⟨hlow, hhigh⟩, -⟩ := this
        simp only [Nat.cast_zero] at hhigh
        omega
      have hcells : job.cells.filter (job.reached (0, 0) · ≠ []) = [] := by
        simp [hreached]
      rw [hcells]
      exact .nil
    · rw [if_neg hgiven]
      rfl
  have hfits : job.Fits ↔ ∀ cell ∈ job.data.tableCells,
      cell.startRow.toInt < intMax ∧ cell.startCol.toInt < intMax := by
    rw [Job.Fits, if_neg (by simp [hderived]), ← or_assoc]
    simp only [hgrid, ne_eq, not_true_eq_false, false_or]
    rw [← or_assoc, or_iff_right hnone]
  obtain ⟨kept, start, hkept, hkeeps⟩ := keptDimensions_spec
    (toNat_toInt_lt job.data.numRows) (toNat_toInt_lt job.data.numCols) budget
  have hrender : job.render budget = placeCells
      (fun cell => flatReach cell.startRow cell.endRow kept.1)
      (fun cell => flatReach cell.startCol cell.endCol kept.2)
      { grid := blank kept.1 kept.2, budget := start, kept } job.data.tableCells := by
    rw [Job.render, if_neg (by simp [hderived]), tableGrid, if_neg hempty]
    simp only [Option.bind_eq_bind, if_neg hnone, hkept, Option.bind_some]
  have hrowReach := fun cell : TableCell => flatReach_spec cell.startRow cell.endRow
    (hkeeps.rows_le.trans_lt (toNat_toInt_lt job.data.numRows))
  have hcolReach := fun cell : TableCell => flatReach_spec cell.startCol cell.endCol
    (hkeeps.cols_le.trans_lt (toNat_toInt_lt job.data.numCols))
  rw [hrender, hfits]
  constructor
  · intro hfits
    obtain ⟨sheet, hplace, hrun⟩ := @placeCells_spec kept.1 kept.2
      (fun cell => flatReach cell.startRow cell.endRow kept.1)
      (fun cell => flatReach cell.startCol cell.endCol kept.2)
      (job.rowsReached kept.1) (job.colsReached kept.2) job.data.tableCells (by
        intro cell hcell
        obtain ⟨hrow, hcol⟩ := hfits cell hcell
        have hrowReach := hrowReach cell
        have hcolReach := hcolReach cell
        rw [if_pos hrow] at hrowReach
        rw [if_pos hcol] at hcolReach
        rw [Job.rowsReached, Job.colsReached, if_neg (by simp [hderived]),
          if_neg (by simp [hderived])]
        exact ⟨hrowReach, hcolReach⟩)
      (job.inside_of_reached kept) { grid := blank kept.1 kept.2, budget := start, kept } _
      (blank_eq_rect kept.1 kept.2)
    exact ⟨sheet, hplace, shows_of_run hgiven hkeeps hrun⟩
  · intro hfails
    push Not at hfails
    obtain ⟨cell, hcell, hfails⟩ := hfails
    apply placeCells_eq_none hcell
    by_cases hrow : cell.startRow.toInt < intMax
    · have hcolReach := hcolReach cell
      rw [if_neg (not_lt.mpr (hfails hrow))] at hcolReach
      exact .inr hcolReach
    · have hrowReach := hrowReach cell
      rw [if_neg hrow] at hrowReach
      exact .inl hrowReach

/-- A table is rendered exactly when the sums over its offsets are numbers. -/
theorem Job.render_spec (job : Job) (budget : GridBudget) :
  (job.Fits → ∃ sheet, job.render budget = some sheet ∧ Shows job sheet ∧ Costs budget sheet) ∧
    (¬ job.Fits → job.render budget = none)
  := by
  cases hderived : job.derived with
  | true => exact Job.render_derived hderived budget
  | false =>
    by_cases hgrid : job.data.grid = []
    · exact Job.render_flat hderived hgrid budget
    · have hfits : job.Fits := by
        rw [Job.Fits, if_neg (by simp [hderived])]
        exact .inl hgrid
      exact ⟨fun _ => Job.render_given ⟨hderived, hgrid⟩ budget, fun hfails => absurd hfits hfails⟩

end

/-! ### The tables of a document -/

/-- The tables of a document, rendered with one budget. -/
def renderTables : List Job → GridBudget → Option (List Sheet)
  | [], _ => some []
  | job :: jobs, budget => do
    let sheet ← job.render budget
    let sheets ← renderTables jobs sheet.budget
    return sheet :: sheets

/-- Tables are rendered within the bounds of a budget. -/
structure Bounded (budget : GridBudget) (jobs : List Job) (sheets : List Sheet) : Prop where
  shows : List.Forall₂ Shows jobs sheets
  positions : (sheets.map fun sheet => sheet.kept.1 * sheet.kept.2).sum ≤ budget.remaining
  repeats : (sheets.map fun sheet => repeatsOf sheet.writes).sum ≤ budget.repeatPositions
  bytes : (sheets.map fun sheet => repeatedBytesOf sheet.writes).sum ≤ budget.repeatBytes

theorem Bounded.cons {budget : GridBudget} {job : Job} {jobs : List Job} {sheet : Sheet}
    {sheets : List Sheet} (hshows : Shows job sheet) (hcosts : Costs budget sheet)
    (h : Bounded sheet.budget jobs sheets) :
  Bounded budget (job :: jobs) (sheet :: sheets)
  := by
  obtain ⟨hpositions, hrepeats, hbytes⟩ := hcosts
  obtain ⟨hrest, hpositions', hrepeats', hbytes'⟩ := h
  constructor
  case shows => exact .cons hshows hrest
  case positions =>
    rw [map_cons, sum_cons]
    omega
  case repeats =>
    rw [map_cons, sum_cons]
    omega
  case bytes =>
    rw [map_cons, sum_cons]
    omega

theorem renderTables_spec (jobs : List Job) (budget : GridBudget) :
  ((∀ job ∈ jobs, job.Fits) →
      ∃ sheets, renderTables jobs budget = some sheets ∧ Bounded budget jobs sheets) ∧
    ((∃ job ∈ jobs, ¬ job.Fits) → renderTables jobs budget = none)
  := by
  induction jobs generalizing budget with
  | nil =>
    refine ⟨fun _ => ⟨[], rfl, .nil, ?_, ?_, ?_⟩, ?_⟩
    · exact Nat.zero_le _
    · exact Nat.zero_le _
    · exact Nat.zero_le _
    · simp
  | cons job jobs ih =>
    obtain ⟨hrenders, hfails⟩ := job.render_spec budget
    constructor
    · intro hfits
      obtain ⟨hjob, hjobs⟩ := forall_mem_cons.mp hfits
      obtain ⟨sheet, hrender, hshows, hcosts⟩ := hrenders hjob
      obtain ⟨sheets, hsheets, hbounded⟩ := (ih sheet.budget).1 hjobs
      refine ⟨sheet :: sheets, ?_, .cons hshows hcosts hbounded⟩
      rw [renderTables, hrender, Option.bind_eq_bind, Option.bind_some, hsheets]
      rfl
    · rintro ⟨bad, hbad, hunfit⟩
      rw [renderTables]
      cases hrender : job.render budget with
      | none => rfl
      | some sheet =>
        obtain rfl | hlater := mem_cons.mp hbad
        · rw [hfails hunfit] at hrender
          cases hrender
        · rw [Option.bind_eq_bind, Option.bind_some, (ih sheet.budget).2 ⟨bad, hlater, hunfit⟩]
          rfl

/-- The tables of a document are rendered within the bounds, no sum having overflowed and no
position outside a grid written, exactly when the sums over their offsets are numbers. -/
theorem renderTables_bounded_iff (jobs : List Job) :
  (∃ sheets, renderTables jobs {} = some sheets ∧ Bounded {} jobs sheets) ↔
    ∀ job ∈ jobs, job.Fits
  := by
  obtain ⟨hrenders, hfails⟩ := renderTables_spec jobs {}
  refine ⟨?_, hrenders⟩
  rintro ⟨sheets, hsheets, -⟩
  by_contra hunfit
  push Not at hunfit
  rw [hfails hunfit] at hsheets
  cases hsheets

/-- A table of one position, whose one cell is said to start at the last number there is. -/
def startsAtIntMax : Job where
  data := {
    tableCells := [{ startRow := 2147483647, endRow := 1, startCol := 0, endCol := 1, text := [] }]
    numRows := 1
    numCols := 1 }
  derived := false

/-- The same table, derived, whose one cell starts in the second row and ends long before it. -/
def endsAtIntMin : Job where
  data := {
    tableCells := [{ startRow := 1, endRow := -2147483648, startCol := 0, endCol := 1, text := [] }]
    numRows := 1
    numCols := 1 }
  derived := true

theorem not_bounded_startsAtIntMax :
  (¬ ∃ sheets, renderTables [startsAtIntMax] {} = some sheets ∧
      Bounded {} [startsAtIntMax] sheets) ∧
    ¬ ∃ sheets, renderTables [endsAtIntMin] {} = some sheets ∧ Bounded {} [endsAtIntMin] sheets
  := by
  have hflat : renderTables [startsAtIntMax] {} = none := by rfl
  have hderived : renderTables [endsAtIntMin] {} = none := by rfl
  constructor
  · rintro ⟨sheets, hsheets, -⟩
    rw [hflat] at hsheets
    cases hsheets
  · rintro ⟨sheets, hsheets, -⟩
    rw [hderived] at hsheets
    cases hsheets

end GRParse.Grids

/-!
## The window of a derived grid

A derived grid is the leading part of the grid that the whole table would have.  The code never
builds that one: it clips each range of offsets to what is kept before it writes anything.
-/

namespace GRParse.Grids

/-! ### The grid of the whole table -/

/-- A range of offsets reaches an index: a negative offset counts back from the size, and one that
falls off the front reaches nothing. -/
def Reaches (start stop : ℤ) (size : ℕ) (index : ℤ) : Prop :=
  ∃ offset, start ≤ offset ∧ offset < min stop size ∧ -size ≤ offset ∧ wrap size offset = index

instance (start stop : ℤ) (size : ℕ) (index : ℤ) : Decidable (Reaches start stop size index) :=
  decidable_of_iff _ mem_rangeIndexes

/-- A cell reaches a row and a column. -/
def Job.Covers (job : Job) (cell : TableCell) (row col : ℕ) : Prop :=
  Reaches cell.startRow.toInt cell.endRow.toInt job.rows row ∧
    Reaches cell.startCol.toInt cell.endCol.toInt job.cols col

instance (job : Job) (cell : TableCell) (row col : ℕ) : Decidable (job.Covers cell row col) :=
  inferInstanceAs (Decidable (_ ∧ _))

/-- What the cells of a table show at a row and a column, each over those before it. -/
def Job.plainGrid (job : Job) (row col : ℕ) : Option TableCell :=
  job.data.tableCells.foldl (fun shown cell => if job.Covers cell row col then some cell else shown)
    none

/-! ### A budget that pays for all cells -/

/-- A budget pays for the repeats of some texts, one after the other. -/
def GridBudget.PaysFor : GridBudget → List (ℕ × ℕ) → Prop
  | _, [] => True
  | budget, (repeats, bytes) :: demands =>
    ∃ budget', budget.spendRepeats repeats bytes = some (true, budget') ∧ budget'.PaysFor demands

/-- The repeats of each cell, and the bytes of its text. -/
def demands (reached : TableCell → List Position) (cells : List TableCell) : List (ℕ × ℕ) :=
  cells.map fun cell => ((reached cell).length - 1, cell.text.length)

/-- A budget refuses no cell of a table. -/
def Job.RefusesNone (job : Job) (budget : GridBudget) : Prop :=
  ∀ kept start, keptDimensions job.rows job.cols budget = some (kept, start) →
    start.PaysFor (demands (job.reached kept) job.data.tableCells)

/-- Cells that are all paid for are written wherever they reach. -/
theorem Run.grid_of_paysFor {reached : TableCell → List Position} {height width : ℕ}
    {sheet sheet' : Sheet} {cells : List TableCell} (h : Run reached sheet cells sheet')
    (hinside : ∀ cell, ∀ position ∈ reached cell, Inside height width position)
    {f : ℕ → ℕ → Option TableCell} (hgrid : sheet.grid = rect height width f)
    (hpays : sheet.budget.PaysFor (demands reached cells)) :
  sheet'.grid = rect height width (contents (cells.map fun cell => (cell, reached cell)) f)
  := by
  induction h generalizing f with
  | nil => exact hgrid
  | @cons sheet middle sheet' cell cells first rest ih =>
    obtain ⟨budget', hspends', hlater⟩ := hpays
    cases first with
    | skipped none =>
      have hsame : sheet.budget = budget' := by
        rw [none] at hspends'
        simpa [GridBudget.spendRepeats] using hspends'
      have hnothing : writeAt cell (reached cell) f = f := by
        funext row col
        simp [writeAt, none]
      have hrest := ih hgrid (hsame ▸ hlater)
      rw [← hnothing] at hrest
      exact hrest
    | @wrote _ paid budget some spends hbudget kept entries grid =>
      obtain ⟨rfl, rfl⟩ : paid = true ∧ budget = budget' := by
        simpa using spends.symm.trans hspends'
      rw [if_pos rfl, hgrid, foldlM_write_rect cell _ f (hinside cell)] at grid
      rw [if_pos rfl] at hbudget
      exact ih (Option.some.inj grid).symm (hbudget ▸ hlater)

/-! ### The window -/

theorem rect_congr {rows cols : ℕ} {f g : ℕ → ℕ → Option TableCell}
    (h : ∀ row < rows, ∀ col < cols, f row col = g row col) :
  rect rows cols f = rect rows cols g
  := by
  apply List.map_congr_left
  intro row hrow
  apply List.map_congr_left
  intro col hcol
  exact h row (List.mem_range.mp hrow) col (List.mem_range.mp hcol)

theorem contents_apply (writes : List (TableCell × List Position)) (f : ℕ → ℕ → Option TableCell)
    (row col : ℕ) :
  contents writes f row col = writes.foldl (fun shown entry =>
    if ((row : ℤ), (col : ℤ)) ∈ entry.2 then some entry.1 else shown) (f row col)
  := by
  induction writes generalizing f with
  | nil => rfl
  | cons entry writes ih => exact ih (writeAt entry.1 entry.2 f)

/-- Among the kept positions a cell reaches those that it covers. -/
theorem Job.mem_reached_iff {job : Job} (hderived : job.derived = true) {kept : ℕ × ℕ} {row col : ℕ}
    (hrow : row < kept.1) (hcol : col < kept.2) (cell : TableCell) :
  ((row : ℤ), (col : ℤ)) ∈ job.reached kept cell ↔ job.Covers cell row col
  := by
  rw [Job.reached, mem_positionsOf, Job.rowsReached, Job.colsReached, if_pos hderived,
    if_pos hderived, keep, keep, List.mem_filter, List.mem_filter, mem_rangeIndexes,
    mem_rangeIndexes]
  simp [hrow, hcol, Job.Covers, Reaches]

/-- Where the budget refuses no cell, the derived grid is the leading part of the grid of the whole
table, exactly when its offsets can be counted. -/
theorem derivedTableGrid_window_iff (data : TableData) (budget : GridBudget)
    (hrefuses : (Job.mk data true).RefusesNone budget) :
  (∃ sheet start, keptDimensions (Job.mk data true).rows (Job.mk data true).cols budget =
      some (sheet.kept, start) ∧ derivedTableGrid data budget = some sheet ∧
      sheet.grid = rect sheet.kept.1 sheet.kept.2 (Job.mk data true).plainGrid) ↔
    (Job.mk data true).Fits
  := by
  obtain ⟨kept, start, hkept, hkeeps, hrenders, hfails⟩ :=
    @Job.run_derived (Job.mk data true) rfl budget
  constructor
  · rintro ⟨sheet, -, -, hrender, -⟩
    by_contra hunfit
    cases hrender.symm.trans (hfails hunfit)
  · intro hfits
    obtain ⟨sheet, hrender, hrun⟩ := hrenders hfits
    have hinside := (Job.mk data true).inside_of_reached kept
    obtain ⟨-, -, -, -, hsame, -⟩ := hrun.spec hinside (blank_eq_rect kept.1 kept.2)
    have hgrid := hrun.grid_of_paysFor hinside (blank_eq_rect kept.1 kept.2)
      (hrefuses kept start hkept)
    refine ⟨sheet, start, by rw [hsame]; exact hkept, hrender, ?_⟩
    rw [hsame, hgrid]
    apply rect_congr
    intro row hrow col hcol
    rw [contents_apply, List.foldl_map, Job.plainGrid]
    apply List.foldl_ext
    intro shown cell _
    have hmem := @Job.mem_reached_iff (Job.mk data true) rfl kept row col hrow hcol cell
    simp only [hmem]

/-- Two rows and one column, with a cell that counts back to the last row. -/
def countsBack : TableData where
  tableCells := [{ startRow := -1, endRow := 0, startCol := 0, endCol := 7, text := [0x61] }]
  numRows := 2
  numCols := 1

/-- A budget pays for a cell that repeats nothing. -/
theorem GridBudget.paysFor_singleton (budget : GridBudget) (bytes : ℕ) :
  budget.PaysFor [(0, bytes)]
  := ⟨budget, if_pos le_rfl, trivial⟩

theorem derivedTableGrid_countsBack :
  ∃ sheet start, keptDimensions 2 1 {} = some (sheet.kept, start) ∧
    derivedTableGrid countsBack {} = some sheet ∧
    sheet.grid = rect sheet.kept.1 sheet.kept.2 (Job.mk countsBack true).plainGrid
  := by
  apply (derivedTableGrid_window_iff countsBack {} _).mpr
  · intro cell hcell
    obtain rfl := List.mem_singleton.mp hcell
    refine ⟨⟨?_, ?_⟩, ?_, ?_⟩ <;> decide
  · intro kept start hkept
    have hdimensions : keptDimensions 2 1 {} = some ((2, 1), GridBudget.spend {} 2) := rfl
    obtain ⟨rfl, rfl⟩ : (2, 1) = kept ∧ GridBudget.spend {} 2 = start := by
      simpa using hdimensions.symm.trans hkept
    have hdemands : demands ((Job.mk countsBack true).reached (2, 1)) countsBack.tableCells =
        [(0, 1)] := by decide
    exact hdemands ▸ GridBudget.paysFor_singleton _ 1

/-- The derived grid of a cell that ends long before its start is not the window, although the
budget refuses nothing. -/
theorem derivedTableGrid_endsAtIntMin :
  endsAtIntMin.RefusesNone {} ∧ derivedTableGrid endsAtIntMin.data {} = none
  := by
  have hunfit : ¬ endsAtIntMin.Fits := fun h => absurd (h _ List.mem_cons_self).1.1 (by decide)
  refine ⟨?_, (endsAtIntMin.render_spec {}).2 hunfit⟩
  intro kept start hkept
  have hdimensions : keptDimensions 1 1 {} = some ((1, 1), GridBudget.spend {} 1) := rfl
  obtain ⟨rfl, rfl⟩ : (1, 1) = kept ∧ GridBudget.spend {} 1 = start := by
    simpa using hdimensions.symm.trans hkept
  have hdemands : demands (endsAtIntMin.reached (1, 1)) endsAtIntMin.data.tableCells =
      [(0, 0)] := by decide
  exact hdemands ▸ GridBudget.paysFor_singleton _ 0

end GRParse.Grids
