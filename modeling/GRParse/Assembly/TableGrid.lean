import GRParse.Assembly.Page
import Mathlib.Data.List.ModifyLast
import Mathlib.Tactic.Ring

/-!
# The grid of a table

A grid for the lines of a table, from their geometry alone.  The rows are bands of lines, the
columns are the stretches that the lines take up between them, and a line goes into its row and
the column it has most in common with.
-/

namespace GRParse.Assembly

open Sorting List

/-- The lines that belong to a region. -/
def linesOf (page : OcrPage) (region : RegionRef) : List LineRef :=
  page.readableLines.filter fun line => regionForLine page line.1 = some region

/-- From the top, and from the left on one level.  Where the source leaves the order of lines
open, they keep theirs. -/
def fromTop (lines : List LineRef) : List LineRef :=
  sortOn (fun line => (boundingBox line.1).corner) lines

/-! ### Rows -/

/-- The bands so far, and how far down the last one reaches. -/
structure RowBands where
  bands : List (List LineRef) := []
  bandBottom : ℤ := 0

/-- A line whose center is below the last band opens the next one. -/
def RowBands.add (rows : RowBands) (line : LineRef) : RowBands :=
  let box := boundingBox line.1
  if rows.bands = [] ∨ rows.bandBottom < box.center.y then ⟨rows.bands ++ [[line]], box.bottom⟩
  else ⟨rows.bands.modifyLast (· ++ [line]), max rows.bandBottom box.bottom⟩

/-- `cluster_rows`. -/
def clusterRows (lines : List LineRef) : List (List LineRef) :=
  ((fromTop lines).foldl RowBands.add {}).bands

theorem RowBands.flatten_add (rows : RowBands) (line : LineRef) :
  (rows.add line).bands.flatten = rows.bands.flatten ++ [line]
  := by
  unfold RowBands.add
  dsimp only
  split
  case isTrue => simp
  case isFalse h =>
    push Not at h
    obtain ⟨bands, band, hbands⟩ := (eq_nil_or_concat' rows.bands).resolve_left h.1
    simp [hbands, modifyLast_concat]

theorem RowBands.flatten_foldl (rows : RowBands) (lines : List LineRef) :
  (lines.foldl RowBands.add rows).bands.flatten = rows.bands.flatten ++ lines
  := by
  induction lines generalizing rows with
  | nil => simp
  | cons line lines ih => rw [foldl_cons, ih, flatten_add, append_assoc, singleton_append]

/-- The bands hold the lines, each once. -/
theorem flatten_clusterRows (lines : List LineRef) :
  (clusterRows lines).flatten.Perm lines
  := by
  rw [clusterRows, RowBands.flatten_foldl]
  exact sortOn_perm _ lines

/-! ### Columns -/

/-- A stretch of a row, from its left end to its right end. -/
abbrev Span := ℤ × ℤ

/-- A span that starts within the gutter behind the last one is merged into it. -/
def mergeSpan (gutter : ℤ) (merged : List Span) (span : Span) : List Span :=
  match merged.getLast? with
  | some last =>
    if span.1 ≤ last.2 + gutter then merged.modifyLast fun last => (last.1, max last.2 span.2)
    else merged ++ [span]
  | none => merged ++ [span]

/-- `column_spans`. -/
def columnSpans (lines : List LineRef) (gutter : ℤ) : List Span :=
  let spans := lines.map fun line => ((boundingBox line.1).left, (boundingBox line.1).right)
  (sortOn toLex spans).foldl (mergeSpan gutter) []

theorem mergeSpan_ne_nil (gutter : ℤ) (merged : List Span) (span : Span) :
  mergeSpan gutter merged span ≠ []
  := by
  unfold mergeSpan
  split
  case h_1 last hlast =>
    split
    case isTrue =>
      have hmerged : merged ≠ [] := by
        rintro rfl
        simp at hlast
      obtain ⟨init, final, rfl⟩ := (eq_nil_or_concat' merged).resolve_left hmerged
      simp [modifyLast_concat]
    case isFalse => simp
  case h_2 => simp

/-- Where there are lines there are columns. -/
theorem columnSpans_ne_nil {lines : List LineRef} (h : lines ≠ []) (gutter : ℤ) :
  columnSpans lines gutter ≠ []
  := by
  have hspans : sortOn toLex
      (lines.map fun line => ((boundingBox line.1).left, (boundingBox line.1).right)) ≠ [] := by
    intro hnil
    have hlength := (sortOn_perm toLex
      (lines.map fun line => ((boundingBox line.1).left, (boundingBox line.1).right))).length_eq
    rw [hnil, length_map] at hlength
    exact h (length_eq_zero_iff.mp hlength.symm)
  obtain ⟨init, final, hfinal⟩ := (eq_nil_or_concat' _).resolve_left hspans
  dsimp only [columnSpans]
  rw [hfinal, foldl_append]
  exact mergeSpan_ne_nil gutter _ final

/-- How far a box and a column overlap; where they do not, how far apart their centers are,
negated. -/
def columnOverlap (box : AxisAlignedBox) (column : Span) : ℤ :=
  let overlap := min box.right column.2 - max box.left column.1
  if overlap ≤ 0 then -|box.center.x - (column.1 + column.2).tdiv 2| else overlap

/-- The better of the best column so far and the next one. -/
def betterColumn (box : AxisAlignedBox) (best : ℕ × Option ℤ) (column : Span × ℕ) :
    ℕ × Option ℤ :=
  let overlap := columnOverlap box column.1
  if best.2.all (· < overlap) then (column.2, some overlap) else best

/-- `column_for`. -/
def columnFor (box : AxisAlignedBox) (columns : List Span) : ℕ :=
  (columns.zipIdx.foldl (betterColumn box) (0, none)).1

theorem foldl_betterColumn_lt {box : AxisAlignedBox} {columns : List (Span × ℕ)}
    {best : ℕ × Option ℤ} {bound : ℕ} (hbest : best.1 < bound)
    (hcolumns : ∀ column ∈ columns, column.2 < bound) :
  (columns.foldl (betterColumn box) best).1 < bound
  := by
  induction columns generalizing best with
  | nil => exact hbest
  | cons column columns ih =>
    apply ih
    · dsimp only [betterColumn]
      split
      case isTrue => exact hcolumns column (by simp)
      case isFalse => exact hbest
    · exact fun other hother => hcolumns other (mem_cons_of_mem _ hother)

theorem columnFor_lt (box : AxisAlignedBox) {columns : List Span} (h : columns ≠ []) :
  columnFor box columns < columns.length
  := by
  apply foldl_betterColumn_lt (length_pos_of_ne_nil h)
  intro column hcolumn
  simpa using (mem_zipIdx hcolumn).2.1

/-! ### The grid -/

/-- A position of the grid: the lines in it and the box around them. -/
structure TableCellGeometry where
  row : ℕ := 0
  col : ℕ := 0
  box : AxisAlignedBox := {}
  lineIndices : List LineRef := []

def TableCellGeometry.add (cell : TableCellGeometry) (line : LineRef) : TableCellGeometry where
  row := cell.row
  col := cell.col
  box := if cell.lineIndices = [] then boundingBox line.1 else cell.box.hull (boundingBox line.1)
  lineIndices := cell.lineIndices ++ [line]

structure TableGrid where
  rows : ℕ := 0
  cols : ℕ := 0
  cells : List TableCellGeometry := []

/-- `median_height`. -/
def medianHeight (lines : List LineRef) : ℤ :=
  (sortOn id (lines.map fun line => (boundingBox line.1).height)).getD (lines.length / 2) 0

/-- A line goes into the cell of its row and its column. -/
def placeInRow (columns : List Span) (row : ℕ) (cells : List TableCellGeometry)
    (line : LineRef) : List TableCellGeometry :=
  cells.modify (row * columns.length + columnFor (boundingBox line.1) columns) (·.add line)

/-- The lines of a band go into its row. -/
def placeBand (columns : List Span) (cells : List TableCellGeometry)
    (band : List LineRef × ℕ) : List TableCellGeometry :=
  band.1.foldl (placeInRow columns band.2) cells

/-- The positions of a grid, row by row. -/
def blankCells (rows cols : ℕ) : List TableCellGeometry :=
  (List.range rows).flatMap fun row => (List.range cols).map fun col => { row, col }

/-- `build_table_grid`. -/
def buildTableGrid (page : OcrPage) (table : RegionRef) : TableGrid :=
  let lines := linesOf page table
  if lines = [] then {}
  else
    let gutter := max 2 ((medianHeight lines).tdiv 2)
    let columns := columnSpans lines gutter
    let bands := clusterRows lines
    { rows := bands.length
      cols := columns.length
      cells := bands.zipIdx.foldl (placeBand columns) (blankCells bands.length columns.length) }

section

variable {columns : List Span} (hcolumns : columns ≠ [])

include hcolumns

theorem placeBand_perm {row rows : ℕ} (hrow : row < rows) (band : List LineRef)
    {cells : List TableCellGeometry} (hcells : cells.length = rows * columns.length) :
  (placeBand columns cells (band, row)).length = cells.length ∧
    ((placeBand columns cells (band, row)).flatMap TableCellGeometry.lineIndices).Perm
      (cells.flatMap TableCellGeometry.lineIndices ++ band)
  := by
  unfold placeBand
  dsimp only
  induction band generalizing cells with
  | nil => simp
  | cons line band ih =>
    have hindex : row * columns.length + columnFor (boundingBox line.1) columns <
        cells.length := by
      have hcol := columnFor_lt (boundingBox line.1) hcolumns
      calc row * columns.length + columnFor (boundingBox line.1) columns
          < row * columns.length + columns.length := by omega
        _ = (row + 1) * columns.length := by ring
        _ ≤ rows * columns.length := Nat.mul_le_mul_right _ hrow
        _ = cells.length := hcells.symm
    have hplaced : (placeInRow columns row cells line).length = cells.length := by
      simp [placeInRow]
    have hline : ((placeInRow columns row cells line).flatMap TableCellGeometry.lineIndices).Perm
        (cells.flatMap TableCellGeometry.lineIndices ++ [line]) :=
      Lists.flatMap_modify_perm (fun _ => .refl _) hindex
    obtain ⟨hlength, hperm⟩ := ih (hplaced.trans hcells)
    constructor
    · exact hlength.trans hplaced
    · apply hperm.trans
      simpa using hline.append_right band

theorem placeBands_perm {bands : List (List LineRef)} {row rows : ℕ}
    (hrows : row + bands.length ≤ rows)
    {cells : List TableCellGeometry} (hcells : cells.length = rows * columns.length) :
  (((bands.zipIdx row).foldl (placeBand columns) cells).flatMap
      TableCellGeometry.lineIndices).Perm
    (cells.flatMap TableCellGeometry.lineIndices ++ bands.flatten)
  := by
  induction bands generalizing row cells with
  | nil => simp
  | cons band bands ih =>
    rw [length_cons] at hrows
    obtain ⟨hlength, hband⟩ :=
      placeBand_perm hcolumns (show row < rows by omega) band hcells
    rw [zipIdx_cons, foldl_cons]
    apply (ih (by omega) (hlength.trans hcells)).trans
    simpa using hband.append_right bands.flatten

end

/-- The grid of a table holds the lines of the table, each once. -/
theorem buildTableGrid_perm (page : OcrPage) (table : RegionRef) :
  ((buildTableGrid page table).cells.flatMap TableCellGeometry.lineIndices).Perm
    (linesOf page table)
  := by
  unfold buildTableGrid
  dsimp only
  split
  case isTrue h => simp [h]
  case isFalse h =>
    have hcells : ∀ rows cols, (blankCells rows cols).length = rows * cols := by
      intro rows cols
      simp [blankCells]
    have hblank : ∀ rows cols,
        (blankCells rows cols).flatMap TableCellGeometry.lineIndices = [] := by
      intro rows cols
      simp [blankCells, flatMap_assoc, flatMap_map]
    let gutter := max 2 ((medianHeight (linesOf page table)).tdiv 2)
    have hperm := placeBands_perm (columnSpans_ne_nil h gutter)
      (Nat.zero_add (clusterRows (linesOf page table)).length).le (hcells _ _)
    rw [hblank, nil_append] at hperm
    exact hperm.trans (flatten_clusterRows _)

end GRParse.Assembly
