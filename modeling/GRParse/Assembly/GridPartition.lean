import GRParse.Assembly.TableGrid
import Mathlib.Data.List.GetD

/-!
# The grid of a table is a partition

The rows of the grid are stretches of the lines in their order from the top, and the columns are
apart by more than the gutter.  A line with a width is in the one column that its box is in, so each
column has a line if all lines have a width.  A position holds the lines of its row and its column,
in their order, and the box around them.
-/

namespace GRParse.Assembly

open Sorting List Nat

/-! ### Rows -/

theorem RowBands.forall_ne_nil_add {rows : RowBands} (h : ∀ band ∈ rows.bands, band ≠ [])
    (line : LineRef) :
  ∀ band ∈ (rows.add line).bands, band ≠ []
  := by
  unfold RowBands.add
  dsimp only
  split
  case isTrue =>
    intro band hband
    rcases mem_append.mp hband with hold | hnew
    · exact h band hold
    · rw [mem_singleton.mp hnew]
      exact cons_ne_nil _ _
  case isFalse hband =>
    push Not at hband
    obtain ⟨bands, last, hbands⟩ := (eq_nil_or_concat' rows.bands).resolve_left hband.1
    rw [hbands] at h
    intro band
    simp only [hbands, modifyLast_concat, mem_append, mem_singleton]
    rintro (hold | rfl)
    · exact h band (mem_append_left _ hold)
    · exact append_ne_nil_of_right_ne_nil _ (cons_ne_nil _ _)

/-- There is a line in each band. -/
theorem ne_nil_of_mem_clusterRows {lines band : List LineRef} (h : band ∈ clusterRows lines) :
  band ≠ []
  := by
  have hall : ∀ (sorted : List LineRef) (rows : RowBands), (∀ band ∈ rows.bands, band ≠ []) →
      ∀ band ∈ (sorted.foldl RowBands.add rows).bands, band ≠ [] := by
    intro sorted
    induction sorted with
    | nil => exact fun rows hrows => hrows
    | cons line sorted ih => exact fun rows hrows => ih _ (rows.forall_ne_nil_add hrows line)
  exact hall _ {} (forall_mem_nil _) band h

/-- The bands are stretches of the lines, from the top. -/
theorem flatten_clusterRows_eq (lines : List LineRef) :
  (clusterRows lines).flatten = fromTop lines
  := by
  rw [clusterRows, RowBands.flatten_foldl]
  rfl

/-! ### Columns -/

/-- The columns of some spans, which start from the left: they are apart by more than the gutter,
and each of them is around a span. -/
structure Merged (gutter : ℤ) (spans columns : List Span) : Prop where
  gaps : columns.Pairwise fun column next => column.2 + gutter < next.1
  ordered : ∀ column ∈ columns, column.1 ≤ column.2
  holds : ∀ span ∈ spans, ∃ column ∈ columns, column.1 ≤ span.1 ∧ span.2 ≤ column.2
  held : ∀ column ∈ columns, ∃ span ∈ spans, column.1 ≤ span.1 ∧ span.2 ≤ column.2
  started : ∀ column ∈ columns, ∃ span ∈ spans, column.1 = span.1

variable {gutter : ℤ} {spans columns : List Span}

theorem Merged.append (h : Merged gutter spans columns) {span : Span} (hspan : span.1 ≤ span.2)
    (hgap : ∀ column ∈ columns, column.2 + gutter < span.1) :
  Merged gutter (spans ++ [span]) (columns ++ [span])
  := by
  constructor
  case gaps =>
    rw [pairwise_append]
    use h.gaps, pairwise_singleton _ _
    intro column hcolumn next hnext
    rw [mem_singleton.mp hnext]
    exact hgap column hcolumn
  case ordered =>
    rw [forall_mem_append, forall_mem_singleton]
    exact ⟨h.ordered, hspan⟩
  case holds =>
    rw [forall_mem_append, forall_mem_singleton]
    constructor
    · intro other hother
      obtain ⟨column, hcolumn, hin⟩ := h.holds other hother
      exact ⟨column, mem_append_left _ hcolumn, hin⟩
    · exact ⟨span, by simp, le_rfl, le_rfl⟩
  case held =>
    rw [forall_mem_append, forall_mem_singleton]
    constructor
    · intro column hcolumn
      obtain ⟨other, hother, hin⟩ := h.held column hcolumn
      exact ⟨other, mem_append_left _ hother, hin⟩
    · exact ⟨span, by simp, le_rfl, le_rfl⟩
  case started =>
    rw [forall_mem_append, forall_mem_singleton]
    constructor
    · intro column hcolumn
      obtain ⟨other, hother, hstart⟩ := h.started column hcolumn
      exact ⟨other, mem_append_left _ hother, hstart⟩
    · exact ⟨span, by simp, rfl⟩

theorem Merged.widen {last span : Span} (h : Merged gutter spans (columns ++ [last]))
    (hstart : last.1 ≤ span.1) :
  Merged gutter (spans ++ [span]) (columns ++ [(last.1, max last.2 span.2)])
  := by
  have hlast := h.ordered last (by simp)
  constructor
  case gaps =>
    obtain ⟨hgaps, -, hnext⟩ := pairwise_append.mp h.gaps
    rw [pairwise_append]
    use hgaps, pairwise_singleton _ _
    intro column hcolumn next hmem
    rw [mem_singleton.mp hmem]
    exact hnext column hcolumn last (mem_singleton_self _)
  case ordered =>
    rw [forall_mem_append, forall_mem_singleton]
    use fun column hcolumn => h.ordered column (mem_append_left _ hcolumn)
    exact hlast.trans (le_max_left _ _)
  case holds =>
    rw [forall_mem_append, forall_mem_singleton]
    constructor
    · intro other hother
      obtain ⟨column, hcolumn, hin⟩ := h.holds other hother
      rcases mem_append.mp hcolumn with hold | hnew
      · exact ⟨column, mem_append_left _ hold, hin⟩
      · rw [mem_singleton.mp hnew] at hin
        exact ⟨(last.1, max last.2 span.2), by simp, hin.1, hin.2.trans (le_max_left _ _)⟩
    · exact ⟨(last.1, max last.2 span.2), by simp, hstart, le_max_right _ _⟩
  case held =>
    rw [forall_mem_append, forall_mem_singleton]
    constructor
    · intro column hcolumn
      obtain ⟨other, hother, hin⟩ := h.held column (mem_append_left _ hcolumn)
      exact ⟨other, mem_append_left _ hother, hin⟩
    · exact ⟨span, by simp, hstart, le_max_right _ _⟩
  case started =>
    rw [forall_mem_append, forall_mem_singleton]
    constructor
    · intro column hcolumn
      obtain ⟨other, hother, hin⟩ := h.started column (mem_append_left _ hcolumn)
      exact ⟨other, mem_append_left _ hother, hin⟩
    · obtain ⟨other, hother, hin⟩ := h.started last (by simp)
      exact ⟨other, mem_append_left _ hother, hin⟩

/-- A span that starts no further to the left than those before it is merged. -/
theorem Merged.mergeSpan (h : Merged gutter spans columns) {span : Span}
    (hspan : span.1 ≤ span.2) (hsorted : ∀ other ∈ spans, other.1 ≤ span.1) :
  Merged gutter (spans ++ [span]) (mergeSpan gutter columns span)
  := by
  rcases eq_nil_or_concat' columns with rfl | ⟨init, last, rfl⟩
  · exact h.append hspan (forall_mem_nil _)
  · have hstart : last.1 ≤ span.1 := by
      obtain ⟨other, hother, heq⟩ := h.started last (by simp)
      rw [heq]
      exact hsorted other hother
    rw [Assembly.mergeSpan, getLast?_concat]
    dsimp only
    split
    case isTrue =>
      rw [modifyLast_concat]
      exact h.widen hstart
    case isFalse hgap =>
      apply h.append hspan
      rw [forall_mem_append, forall_mem_singleton]
      constructor
      · intro column hcolumn
        have hnext := (pairwise_append.mp h.gaps).2.2 column hcolumn last
          (mem_singleton_self _)
        exact hnext.trans_le hstart
      · exact not_le.mp hgap

theorem Merged.foldl (h : Merged gutter spans columns) {rest : List Span}
    (hrest : ∀ span ∈ rest, span.1 ≤ span.2)
    (hsorted : (spans ++ rest).Pairwise fun span next => span.1 ≤ next.1) :
  Merged gutter (spans ++ rest) (rest.foldl (Assembly.mergeSpan gutter) columns)
  := by
  induction rest generalizing spans columns with
  | nil => rwa [append_nil]
  | cons span rest ih =>
    obtain ⟨hspan, hrest⟩ := forall_mem_cons.mp hrest
    have hbefore : ∀ other ∈ spans, other.1 ≤ span.1 := fun other hother =>
      (pairwise_append.mp hsorted).2.2 other hother span mem_cons_self
    rw [append_cons] at hsorted ⊢
    exact ih (h.mergeSpan hspan hbefore) hrest hsorted

/-- The span of a line. -/
def spanOf (line : LineRef) : Span :=
  ((boundingBox line.1).left, (boundingBox line.1).right)

/-- The columns of lines are apart, and hold the lines. -/
theorem merged_columnSpans (lines : List LineRef) (gutter : ℤ) :
  Merged gutter (sortOn toLex (lines.map spanOf)) (columnSpans lines gutter)
  := by
  have hnil : Merged gutter [] [] := by
    constructor
    case gaps => exact .nil
    all_goals exact forall_mem_nil _
  have hordered : ∀ span ∈ sortOn toLex (lines.map spanOf), span.1 ≤ span.2 := by
    intro span hspan
    rw [(sortOn_perm _ _).mem_iff, mem_map] at hspan
    obtain ⟨line, -, rfl⟩ := hspan
    exact (ordered_boundingBox line.1).1
  have hsorted : (sortOn toLex (lines.map spanOf)).Pairwise fun span next => span.1 ≤ next.1 := by
    apply (pairwise_sortOn toLex (lines.map spanOf)).imp
    intro span next hle
    rcases Prod.Lex.le_iff.mp hle with hlt | heq
    · exact hlt.le
    · exact heq.1.le
  exact hnil.foldl hordered hsorted

/-! ### The column of a line -/

variable {box : AxisAlignedBox}

/-- A column that has nothing in common with a box is no better than nothing. -/
theorem foldl_betterColumn_of_nonpos {columns : List (Span × ℕ)} {best : ℕ × Option ℤ}
    (hbest : best.2.all (· ≤ 0)) (h : ∀ column ∈ columns, columnOverlap box column.1 ≤ 0) :
  (columns.foldl (betterColumn box) best).2.all (· ≤ 0)
  := by
  induction columns generalizing best with
  | nil => exact hbest
  | cons column columns ih =>
    obtain ⟨hcolumn, hrest⟩ := forall_mem_cons.mp h
    apply ih _ hrest
    dsimp only [betterColumn]
    split
    case isTrue => simpa using hcolumn
    case isFalse => exact hbest

/-- A column that has something in common with a box is not given up for one that has not. -/
theorem foldl_betterColumn_of_pos {columns : List (Span × ℕ)} {index : ℕ} {overlap : ℤ}
    (hoverlap : 0 < overlap) (h : ∀ column ∈ columns, columnOverlap box column.1 ≤ 0) :
  columns.foldl (betterColumn box) (index, some overlap) = (index, some overlap)
  := by
  induction columns with
  | nil => rfl
  | cons column columns ih =>
    obtain ⟨hcolumn, hrest⟩ := forall_mem_cons.mp h
    have hkeep : betterColumn box (index, some overlap) column = (index, some overlap) := by
      have hnot : ¬overlap < columnOverlap box column.1 := by omega
      simp [betterColumn, hnot]
    rw [foldl_cons, hkeep, ih hrest]

/-- The only column that has something in common with a box is the best one. -/
theorem columnFor_eq {front back : List Span} {column : Span}
    (hcolumn : 0 < columnOverlap box column)
    (hfront : ∀ other ∈ front, columnOverlap box other ≤ 0)
    (hback : ∀ other ∈ back, columnOverlap box other ≤ 0) :
  columnFor box (front ++ column :: back) = front.length
  := by
  have hzip : ∀ (others : List Span) (start : ℕ), (∀ other ∈ others, columnOverlap box other ≤ 0) →
      ∀ other ∈ others.zipIdx start, columnOverlap box other.1 ≤ 0 :=
    fun others start h other hother => h _ (fst_mem_of_mem_zipIdx hother)
  have hbefore : (front.zipIdx.foldl (betterColumn box) (0, none)).2.all (· ≤ 0) :=
    foldl_betterColumn_of_nonpos rfl (hzip front 0 hfront)
  rw [columnFor, zipIdx_append, foldl_append, zipIdx_cons, foldl_cons]
  generalize front.zipIdx.foldl (betterColumn box) (0, none) = best at hbefore ⊢
  have hbetter : betterColumn box best (column, 0 + front.length) =
      (0 + front.length, some (columnOverlap box column)) := by
    rw [betterColumn, if_pos]
    cases hoverlap : best.2 with
    | none => rfl
    | some overlap =>
      rw [hoverlap] at hbefore
      simp only [Option.all_some, decide_eq_true_eq] at hbefore ⊢
      omega
  rw [hbetter, foldl_betterColumn_of_pos hcolumn (hzip back _ hback)]
  exact zero_add _

theorem columnOverlap_of_contains {column : Span} (hwidth : 0 < box.width)
    (hleft : column.1 ≤ box.left) (hright : box.right ≤ column.2) :
  0 < columnOverlap box column
  := by
  rw [AxisAlignedBox.width] at hwidth
  rw [columnOverlap, min_eq_left hright, max_eq_left hleft, if_neg (by omega)]
  exact hwidth

theorem columnOverlap_of_apart {column : Span} (h : column.2 ≤ box.left ∨ box.right ≤ column.1) :
  columnOverlap box column ≤ 0
  := by
  have hnone : min box.right column.2 - max box.left column.1 ≤ 0 := by omega
  rw [columnOverlap, if_pos hnone]
  exact neg_nonpos.mpr (abs_nonneg _)

/-- The column that the box of a line is in is the one that the line goes into. -/
theorem Merged.columnFor_eq (h : Merged gutter spans columns) (hgutter : 0 ≤ gutter)
    (hwidth : 0 < box.width) {column : Span} (hcolumn : column ∈ columns)
    (hleft : column.1 ≤ box.left) (hright : box.right ≤ column.2) :
  columns[columnFor box columns]? = some column
  := by
  rw [AxisAlignedBox.width] at hwidth
  obtain ⟨front, back, rfl⟩ := append_of_mem hcolumn
  obtain ⟨-, hafter, hbefore⟩ := pairwise_append.mp h.gaps
  rw [Assembly.columnFor_eq (columnOverlap_of_contains hwidth hleft hright)]
  · simp
  · intro other hother
    have hgap := hbefore other hother column mem_cons_self
    exact columnOverlap_of_apart (.inl (by omega))
  · intro other hother
    have hgap := (pairwise_cons.mp hafter).1 other hother
    exact columnOverlap_of_apart (.inr (by omega))

/-! ### Positions -/

/-- A position of the grid with the lines that go there. -/
def filledCell (columns : List Span) (bands : List (List LineRef)) (row col : ℕ) :
    TableCellGeometry :=
  ((bands.getD row []).filter fun line => columnFor (boundingBox line.1) columns = col).foldl
    TableCellGeometry.add { row, col }

variable {cells : List TableCellGeometry}

/-- The positions of a grid, row by row, are told apart by their places. -/
theorem mul_add_eq_iff {count row row' col col' : ℕ} (h : col < count) (h' : col' < count) :
  row * count + col = row' * count + col' ↔ row = row' ∧ col = col'
  := by
  constructor
  · intro heq
    have hdiv := congrArg (· / count) heq
    have hmod := congrArg (· % count) heq
    simp only [mul_comm _ count, mul_add_mod, mod_eq_of_lt h,
      mod_eq_of_lt h'] at hmod
    simp only [mul_comm _ count, mul_add_div (zero_lt_of_lt h),
      div_eq_of_lt h, div_eq_of_lt h', add_zero] at hdiv
    exact ⟨hdiv, hmod⟩
  · rintro ⟨rfl, rfl⟩
    rfl

theorem getElem?_placeBand (band : List LineRef) (cells : List TableCellGeometry) (place : ℕ)
    {row col : ℕ} (hcol : col < columns.length) :
  (placeBand columns cells (band, place))[row * columns.length + col]? =
    cells[row * columns.length + col]?.map fun cell =>
      if row = place then
        (band.filter fun line => columnFor (boundingBox line.1) columns = col).foldl
          TableCellGeometry.add cell
      else cell
  := by
  have hcolumns : columns ≠ [] := ne_nil_of_length_pos (zero_lt_of_lt hcol)
  rw [placeBand]
  induction band generalizing cells with
  | nil => simp
  | cons line band ih =>
    have hline := columnFor_lt (boundingBox line.1) hcolumns
    dsimp only at ih ⊢
    rw [foldl_cons, ih, placeInRow, getElem?_modify]
    cases cells[row * columns.length + col]? with
    | none => simp
    | some cell =>
      by_cases hplace : row = place
      · subst hplace
        by_cases hhere : columnFor (boundingBox line.1) columns = col
        · simp [hhere]
        · simp [hhere]
      · have hnot := mt (mul_add_eq_iff hline hcol).mp fun h => hplace h.1.symm
        simp [hplace, hnot]

variable (bands : List (List LineRef))

theorem getElem?_placeBands (cells : List TableCellGeometry) (start : ℕ) {row col : ℕ}
    (hcol : col < columns.length) :
  ((bands.zipIdx start).foldl (placeBand columns) cells)[row * columns.length + col]? =
    cells[row * columns.length + col]?.map fun cell =>
      if start ≤ row then
        ((bands.getD (row - start) []).filter fun line =>
          columnFor (boundingBox line.1) columns = col).foldl TableCellGeometry.add cell
      else cell
  := by
  induction bands generalizing cells start with
  | nil => simp
  | cons band bands ih =>
    rw [zipIdx_cons, foldl_cons, ih, getElem?_placeBand band cells start hcol,
      Option.map_map]
    congr 1
    funext cell
    rcases Nat.lt_trichotomy row start with hlt | rfl | hgt
    · simp [Nat.not_le_of_lt hlt, Nat.not_le_of_lt (Nat.lt_succ_of_lt hlt), hlt.ne]
    · simp
    · obtain ⟨more, rfl⟩ := Nat.exists_eq_add_of_lt hgt
      have hmore : start + more + 1 - start = more + 1 := by omega
      have hrest : start + more + 1 - (start + 1) = more := by omega
      have hne : start + more + 1 ≠ start := by omega
      rw [Function.comp_apply, if_neg hne, if_pos (by omega), if_pos (by omega), hmore, hrest,
        getD_cons_succ]

theorem length_placeBands (bands : List (List LineRef × ℕ)) (cells : List TableCellGeometry) :
  (bands.foldl (placeBand columns) cells).length = cells.length
  := by
  induction bands generalizing cells with
  | nil => rfl
  | cons band bands ih =>
    rw [foldl_cons, ih, placeBand]
    obtain ⟨lines, place⟩ := band
    dsimp only
    induction lines generalizing cells with
    | nil => rfl
    | cons line lines ihlines => rw [foldl_cons, ihlines, placeInRow, length_modify]

theorem length_blankCells (rows cols : ℕ) :
  (blankCells rows cols).length = rows * cols
  := by simp [blankCells]

theorem mul_add_lt {row rows col cols : ℕ} (hrow : row < rows) (hcol : col < cols) :
  row * cols + col < rows * cols
  := calc
    row * cols + col < row * cols + cols := Nat.add_lt_add_left hcol _
    _ = (row + 1) * cols := (Nat.succ_mul _ _).symm
    _ ≤ rows * cols := Nat.mul_le_mul_right _ hrow

theorem getElem?_blankCells {rows cols row col : ℕ} (hrow : row < rows) (hcol : col < cols) :
  (blankCells rows cols)[row * cols + col]? = some { row, col }
  := by
  induction rows with
  | zero => exact absurd hrow (Nat.not_lt_zero _)
  | succ rows ih =>
    have hlength := length_blankCells rows cols
    have hsucc : blankCells (rows + 1) cols =
        blankCells rows cols ++ (range cols).map fun col => { row := rows, col } := by
      simp [blankCells, range_succ]
    rw [hsucc]
    rcases Nat.lt_succ_iff_lt_or_eq.mp hrow with hlt | rfl
    · rw [getElem?_append_left (by rw [hlength]; exact mul_add_lt hlt hcol), ih hlt]
    · rw [getElem?_append_right (by omega), hlength, Nat.add_sub_cancel_left,
        getElem?_map, getElem?_range hcol]
      rfl

/-- The gutter of the grid. -/
def gutterOf (lines : List LineRef) : ℤ :=
  max 2 ((medianHeight lines).tdiv 2)

/-- The columns of the grid. -/
def tableColumns (page : OcrPage) (table : RegionRef) : List Span :=
  columnSpans (linesOf page table) (gutterOf (linesOf page table))

/-- The rows of the grid. -/
def tableBands (page : OcrPage) (table : RegionRef) : List (List LineRef) :=
  clusterRows (linesOf page table)

variable {page : OcrPage} {table : RegionRef}

/-- There is a position for each row and column, with what goes there. -/
theorem getElem?_buildTableGrid {row col : ℕ} (hrow : row < (tableBands page table).length)
    (hcol : col < (tableColumns page table).length) :
  (buildTableGrid page table).cells[row * (tableColumns page table).length + col]? =
    some (filledCell (tableColumns page table) (tableBands page table) row col)
  := by
  have hlines : linesOf page table ≠ [] := by
    intro hnil
    rw [tableColumns, hnil] at hcol
    exact not_lt_zero _ hcol
  have hcells : (buildTableGrid page table).cells =
      (tableBands page table).zipIdx.foldl (placeBand (tableColumns page table))
        (blankCells (tableBands page table).length (tableColumns page table).length) := by
    rw [buildTableGrid]
    dsimp only
    rw [if_neg hlines]
    rfl
  rw [hcells, getElem?_placeBands _ _ 0 hcol, getElem?_blankCells hrow hcol]
  rfl

theorem length_buildTableGrid (page : OcrPage) (table : RegionRef) :
  (buildTableGrid page table).rows = (tableBands page table).length ∧
    (buildTableGrid page table).cols = (tableColumns page table).length ∧
    (buildTableGrid page table).cells.length =
      (tableBands page table).length * (tableColumns page table).length
  := by
  rw [buildTableGrid]
  dsimp only
  split
  case isTrue hnil =>
    rw [tableBands, tableColumns, hnil]
    exact ⟨rfl, rfl, rfl⟩
  case isFalse =>
    use rfl, rfl
    exact (length_placeBands _ _).trans (length_blankCells _ _)

/-- The positions of the grid are those of its rows and columns. -/
theorem mem_buildTableGrid {cell : TableCellGeometry} :
  cell ∈ (buildTableGrid page table).cells ↔
    ∃ row < (tableBands page table).length, ∃ col < (tableColumns page table).length,
      cell = filledCell (tableColumns page table) (tableBands page table) row col
  := by
  constructor
  · intro hcell
    obtain ⟨index, hindex, rfl⟩ := mem_iff_getElem.mp hcell
    have hlt := hindex
    rw [(length_buildTableGrid page table).2.2] at hlt
    have hcols : 0 < (tableColumns page table).length := by
      rw [Nat.pos_iff_ne_zero]
      intro hzero
      rw [hzero, Nat.mul_zero] at hlt
      exact Nat.not_lt_zero _ hlt
    have hrow := Nat.div_lt_of_lt_mul (hlt.trans_eq (Nat.mul_comm _ _))
    have hcol := Nat.mod_lt index hcols
    refine ⟨_, hrow, _, hcol, ?_⟩
    have hget := getElem?_buildTableGrid hrow hcol
    rw [Nat.div_add_mod'] at hget
    exact (getElem_eq_iff hindex).mpr hget
  · rintro ⟨row, hrow, col, hcol, rfl⟩
    exact mem_of_getElem? (getElem?_buildTableGrid hrow hcol)

/-! ### The lines of a position -/

theorem foldl_add_row_col (lines : List LineRef) (cell : TableCellGeometry) :
  (lines.foldl TableCellGeometry.add cell).row = cell.row ∧
    (lines.foldl TableCellGeometry.add cell).col = cell.col ∧
    (lines.foldl TableCellGeometry.add cell).lineIndices = cell.lineIndices ++ lines
  := by
  induction lines generalizing cell with
  | nil => exact ⟨rfl, rfl, (append_nil _).symm⟩
  | cons line lines ih =>
    obtain ⟨hrow, hcol, hlines⟩ := ih (cell.add line)
    use hrow, hcol
    rw [foldl_cons, hlines]
    simp [TableCellGeometry.add]

theorem filledCell_lineIndices (row col : ℕ) :
  (filledCell columns bands row col).lineIndices =
    (bands.getD row []).filter fun line => columnFor (boundingBox line.1) columns = col
  := (foldl_add_row_col _ _).2.2.trans (nil_append _)

theorem filledCell_row (row col : ℕ) :
  (filledCell columns bands row col).row = row
  := (foldl_add_row_col _ _).1

theorem filledCell_col (row col : ℕ) :
  (filledCell columns bands row col).col = col
  := (foldl_add_row_col _ _).2.1

theorem mem_filledCell {bands : List (List LineRef)} {row col : ℕ} {line : LineRef} :
  line ∈ (filledCell columns bands row col).lineIndices ↔
    line ∈ bands.getD row [] ∧ columnFor (boundingBox line.1) columns = col
  := by rw [filledCell_lineIndices, mem_filter, decide_eq_true_eq]

/-- The edges of the boxes of lines, on one side. -/
def edges (side : AxisAlignedBox → ℤ) (lines : List LineRef) : Set ℤ :=
  {edge | ∃ line ∈ lines, side (boundingBox line.1) = edge}

theorem edges_concat (side : AxisAlignedBox → ℤ) (lines : List LineRef) (line : LineRef) :
  edges side (lines ++ [line]) = insert (side (boundingBox line.1)) (edges side lines)
  := by
  ext edge
  simp [edges, or_and_right, exists_or, or_comm, eq_comm]

/-- A box is the bounding box of lines: each of its edges is the outermost of theirs. -/
structure Bounds (box : AxisAlignedBox) (lines : List LineRef) : Prop where
  left : IsLeast (edges AxisAlignedBox.left lines) box.left
  top : IsLeast (edges AxisAlignedBox.top lines) box.top
  right : IsGreatest (edges AxisAlignedBox.right lines) box.right
  bottom : IsGreatest (edges AxisAlignedBox.bottom lines) box.bottom

theorem bounds_singleton (line : LineRef) :
  Bounds (boundingBox line.1) [line]
  := by
  have hedges : ∀ side, edges side [line] = {side (boundingBox line.1)} := by
    intro side
    ext edge
    simp [edges, eq_comm]
  constructor
  case left => exact hedges _ ▸ isLeast_singleton
  case top => exact hedges _ ▸ isLeast_singleton
  case right => exact hedges _ ▸ isGreatest_singleton
  case bottom => exact hedges _ ▸ isGreatest_singleton

theorem Bounds.hull {lines : List LineRef} (h : Bounds box lines) (line : LineRef) :
  Bounds (box.hull (boundingBox line.1)) (lines ++ [line])
  := by
  constructor
  case left =>
    rw [edges_concat, AxisAlignedBox.hull, min_comm]
    exact h.left.insert _
  case top =>
    rw [edges_concat, AxisAlignedBox.hull, min_comm box.top]
    exact h.top.insert _
  case right =>
    rw [edges_concat, AxisAlignedBox.hull, max_comm]
    exact h.right.insert _
  case bottom =>
    rw [edges_concat, AxisAlignedBox.hull, max_comm box.bottom]
    exact h.bottom.insert _

/-- The box of a position is the bounding box of its lines. -/
structure TableCellGeometry.Boxed (cell : TableCellGeometry) : Prop where
  blank : cell.lineIndices = [] → cell.box = {}
  bounds : cell.lineIndices ≠ [] → Bounds cell.box cell.lineIndices

theorem TableCellGeometry.Boxed.add {cell : TableCellGeometry} (h : cell.Boxed) (line : LineRef) :
  (cell.add line).Boxed
  := by
  constructor
  case blank => exact fun hnil => absurd hnil (append_ne_nil_of_right_ne_nil _ (by simp))
  case bounds =>
    intro _
    rw [TableCellGeometry.add]
    by_cases hnil : cell.lineIndices = []
    · rw [hnil, if_pos rfl]
      exact bounds_singleton line
    · rw [if_neg hnil]
      exact (h.bounds hnil).hull line

theorem boxed_filledCell (row col : ℕ) :
  (filledCell columns bands row col).Boxed
  := by
  have hall : ∀ (lines : List LineRef) (cell : TableCellGeometry), cell.Boxed →
      (lines.foldl TableCellGeometry.add cell).Boxed := by
    intro lines
    induction lines with
    | nil => exact fun cell h => h
    | cons line lines ih => exact fun cell h => ih _ (h.add line)
  exact hall _ _ ⟨fun _ => rfl, fun h => absurd rfl h⟩

/-! ### The partition -/

/-- What the grid of a table is: a partition of its lines into rows and columns. -/
structure GridPartition (page : OcrPage) (table : RegionRef) (grid : TableGrid) : Prop where
  /-- Row by row, there is one position for each column. -/
  positions : grid.cols = (tableColumns page table).length ∧
    grid.cells.length = grid.rows * grid.cols ∧
    ∀ row < grid.rows, ∀ col < grid.cols, ∃ cell,
      grid.cells[row * grid.cols + col]? = some cell ∧ cell.row = row ∧ cell.col = col
  /-- Each line of the table is there once, and no other line is. -/
  lines : (grid.cells.flatMap TableCellGeometry.lineIndices).Nodup ∧
    ∀ line, line ∈ grid.cells.flatMap TableCellGeometry.lineIndices ↔
      line ∈ page.readableLines ∧ regionForLine page line.1 = some table
  /-- A line with a width is in the column that its box is in. -/
  column : ∀ cell ∈ grid.cells, ∀ line ∈ cell.lineIndices, 0 < (boundingBox line.1).width →
    ∃ column, (tableColumns page table)[cell.col]? = some column ∧
      column.1 ≤ (boundingBox line.1).left ∧ (boundingBox line.1).right ≤ column.2
  gaps : (tableColumns page table).Pairwise fun column next =>
    column.2 + gutterOf (linesOf page table) < next.1
  /-- If all lines have a width, no row and no column is empty. -/
  rows_nonempty : ∀ row < grid.rows, ∃ cell ∈ grid.cells, cell.row = row ∧ cell.lineIndices ≠ []
  cols_nonempty : (∀ line ∈ linesOf page table, 0 < (boundingBox line.1).width) →
    ∀ col < grid.cols, ∃ cell ∈ grid.cells, cell.col = col ∧ cell.lineIndices ≠ []
  /-- No line is above one of an earlier row, nor left of it on one level. -/
  rows_ordered : ∀ cell ∈ grid.cells, ∀ later ∈ grid.cells, cell.row < later.row →
    ∀ line ∈ cell.lineIndices, ∀ other ∈ later.lineIndices,
      (boundingBox line.1).corner ≤ (boundingBox other.1).corner
  sorted : ∀ cell ∈ grid.cells, cell.lineIndices.Pairwise fun line other =>
    (boundingBox line.1).corner ≤ (boundingBox other.1).corner
  boxed : ∀ cell ∈ grid.cells, cell.Boxed

/-- The bands in their order are sorted from the top. -/
theorem pairwise_tableBands (page : OcrPage) (table : RegionRef) :
  (∀ band ∈ tableBands page table, band.Pairwise fun line other =>
    (boundingBox line.1).corner ≤ (boundingBox other.1).corner) ∧
  (tableBands page table).Pairwise fun band later => ∀ line ∈ band, ∀ other ∈ later,
    (boundingBox line.1).corner ≤ (boundingBox other.1).corner
  := by
  rw [← pairwise_flatten, tableBands, flatten_clusterRows_eq]
  exact pairwise_sortOn _ _

theorem mem_tableBands {line : LineRef} :
  line ∈ linesOf page table ↔ ∃ band ∈ tableBands page table, line ∈ band
  := by
  rw [← mem_flatten, tableBands, flatten_clusterRows_eq]
  exact (sortOn_perm _ _).mem_iff.symm

/-- The column of a line with a width, and the position in it. -/
theorem exists_column {line : LineRef} (hline : line ∈ linesOf page table)
    (hwidth : 0 < (boundingBox line.1).width) :
  ∃ column, (tableColumns page table)[columnFor (boundingBox line.1) (tableColumns page table)]? =
      some column ∧ column.1 ≤ (boundingBox line.1).left ∧ (boundingBox line.1).right ≤ column.2
  := by
  have hmerged := merged_columnSpans (linesOf page table) (gutterOf (linesOf page table))
  have hspan : spanOf line ∈ sortOn toLex ((linesOf page table).map spanOf) :=
    (sortOn_perm _ _).mem_iff.mpr (mem_map_of_mem hline)
  obtain ⟨column, hcolumn, hleft, hright⟩ := hmerged.holds _ hspan
  have hgutter : 0 ≤ gutterOf (linesOf page table) := by
    rw [gutterOf]
    omega
  exact ⟨column, hmerged.columnFor_eq hgutter hwidth hcolumn hleft hright, hleft, hright⟩

/-- The geometric grid of a table is a partition of its lines. -/
theorem buildTableGrid_partition (page : OcrPage) (table : RegionRef) :
  GridPartition page table (buildTableGrid page table)
  := by
  obtain ⟨hrows, hcols, hlength⟩ := length_buildTableGrid page table
  obtain ⟨hsorted, hordered⟩ := pairwise_tableBands page table
  have hband : ∀ row < (tableBands page table).length, ∃ band ∈ tableBands page table,
      (tableBands page table).getD row [] = band := by
    intro row hrow
    exact ⟨_, List.getElem_mem hrow, List.getD_eq_getElem _ _ hrow⟩
  have hmem : ∀ {row col : ℕ} {line : LineRef}, row < (tableBands page table).length →
      line ∈ (filledCell (tableColumns page table) (tableBands page table) row col).lineIndices →
      line ∈ linesOf page table ∧
        columnFor (boundingBox line.1) (tableColumns page table) = col := by
    intro row col line hrow hline
    obtain ⟨band, hband, heq⟩ := hband row hrow
    rw [mem_filledCell, heq] at hline
    exact ⟨mem_tableBands.mpr ⟨band, hband, hline.1⟩, hline.2⟩
  -- A line of a band is at the position of its column.
  have hplace : ∀ (row : ℕ) (hrow : row < (tableBands page table).length),
      ∀ line ∈ (tableBands page table)[row],
      columnFor (boundingBox line.1) (tableColumns page table) < (tableColumns page table).length ∧
      line ∈ (filledCell (tableColumns page table) (tableBands page table) row
        (columnFor (boundingBox line.1) (tableColumns page table))).lineIndices := by
    intro row hrow line hline
    have hin := mem_tableBands.mpr ⟨_, List.getElem_mem hrow, hline⟩
    use columnFor_lt _ (columnSpans_ne_nil (List.ne_nil_of_mem hin) _)
    rw [mem_filledCell, List.getD_eq_getElem _ _ hrow]
    exact ⟨hline, rfl⟩
  constructor
  case positions =>
    use hcols, by rw [hlength, hrows, hcols]
    intro row hrow col hcol
    rw [hrows] at hrow
    rw [hcols] at hcol ⊢
    exact ⟨_, getElem?_buildTableGrid hrow hcol, filledCell_row _ row col, filledCell_col _ row col⟩
  case lines =>
    have hperm := buildTableGrid_perm page table
    constructor
    · exact hperm.nodup_iff.mpr ((nodup_readableLines page).filter _)
    · intro line
      rw [hperm.mem_iff, linesOf, List.mem_filter, decide_eq_true_eq]
  case column =>
    intro cell hcell line hline hwidth
    obtain ⟨row, hrow, col, hcol, rfl⟩ := mem_buildTableGrid.mp hcell
    obtain ⟨hin, rfl⟩ := hmem hrow hline
    rw [filledCell_col]
    exact exists_column hin hwidth
  case gaps => exact (merged_columnSpans _ _).gaps
  case rows_nonempty =>
    intro row hrow
    rw [hrows] at hrow
    obtain ⟨line, hline⟩ := List.exists_mem_of_ne_nil _
      (ne_nil_of_mem_clusterRows (List.getElem_mem hrow))
    obtain ⟨hcol, hin⟩ := hplace row hrow line hline
    exact ⟨_, mem_buildTableGrid.mpr ⟨row, hrow, _, hcol, rfl⟩, filledCell_row _ row _,
      List.ne_nil_of_mem hin⟩
  case cols_nonempty =>
    intro hwidths col hcol
    rw [hcols] at hcol
    -- A span that the column is around is that of a line, which goes into the column.
    have hmerged := merged_columnSpans (linesOf page table) (gutterOf (linesOf page table))
    obtain ⟨span, hspan, hleft, hright⟩ := hmerged.held _ (List.getElem_mem hcol)
    rw [(sortOn_perm _ _).mem_iff, List.mem_map] at hspan
    obtain ⟨line, hline, rfl⟩ := hspan
    have hgutter : 0 ≤ gutterOf (linesOf page table) := by
      rw [gutterOf]
      omega
    have hget := hmerged.columnFor_eq hgutter (hwidths line hline) (List.getElem_mem hcol)
      hleft hright
    have hnodup : (tableColumns page table).Nodup := by
      apply hmerged.gaps.imp_of_mem
      rintro column next hcolumn - hgap rfl
      have hle := hmerged.ordered column hcolumn
      omega
    have hfor : columnFor (boundingBox line.1) (tableColumns page table) = col := by
      obtain ⟨hlt, heq⟩ := List.getElem?_eq_some_iff.mp hget
      exact (hnodup.getElem_inj_iff).mp heq
    obtain ⟨band, hband, hin⟩ := mem_tableBands.mp hline
    obtain ⟨row, hrow, rfl⟩ := List.mem_iff_getElem.mp hband
    obtain ⟨-, hthere⟩ := hplace row hrow line hin
    rw [hfor] at hthere
    exact ⟨_, mem_buildTableGrid.mpr ⟨row, hrow, col, hcol, rfl⟩, filledCell_col _ row col,
      List.ne_nil_of_mem hthere⟩
  case rows_ordered =>
    intro cell hcell later hlater hlt line hline other hother
    obtain ⟨row, hrow, col, -, rfl⟩ := mem_buildTableGrid.mp hcell
    obtain ⟨row', hrow', col', -, rfl⟩ := mem_buildTableGrid.mp hlater
    rw [filledCell_row, filledCell_row] at hlt
    rw [mem_filledCell, List.getD_eq_getElem _ _ hrow] at hline
    rw [mem_filledCell, List.getD_eq_getElem _ _ hrow'] at hother
    exact List.pairwise_iff_getElem.mp hordered row row' hrow hrow' hlt line hline.1 other hother.1
  case sorted =>
    intro cell hcell
    obtain ⟨row, hrow, col, -, rfl⟩ := mem_buildTableGrid.mp hcell
    obtain ⟨band, hband, heq⟩ := hband row hrow
    rw [filledCell_lineIndices, heq]
    exact (hsorted band hband).filter _
  case boxed =>
    intro cell hcell
    obtain ⟨row, -, col, -, rfl⟩ := mem_buildTableGrid.mp hcell
    exact boxed_filledCell _ row col

end GRParse.Assembly
