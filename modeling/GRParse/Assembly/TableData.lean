import GRParse.Assembly.TableGrid

/-!
# The data of a table

The cells of a table with their texts, as the document has them.  Where the structure model
recognized cells, a line of the table goes into the first cell that holds the center of its box,
and a line that no cell holds is left to the prose.  Elsewhere the cells are those of the grid.
-/

namespace GRParse.Assembly

open List

/-! ### The wire form -/

structure TableCell where
  rowSpan : ℕ := 0
  colSpan : ℕ := 0
  startRowOffsetIdx : ℕ := 0
  endRowOffsetIdx : ℕ := 0
  startColOffsetIdx : ℕ := 0
  endColOffsetIdx : ℕ := 0
  columnHeader : Bool := false
  text : List UInt8 := []
  bbox : Option AxisAlignedBox := none

structure TableData where
  numRows : ℕ := 0
  numCols : ℕ := 0
  tableCells : List TableCell := []
  grid : List (List TableCell) := []

/-- A cell of the grid that takes up one position. -/
def TableCell.unit (row col : ℕ) : TableCell where
  rowSpan := 1
  colSpan := 1
  startRowOffsetIdx := row
  endRowOffsetIdx := row + 1
  startColOffsetIdx := col
  endColOffsetIdx := col + 1

/-- A text with one more line, which a separator sets apart from the text there is. -/
def appendText (separator : UInt8) (text : List UInt8) (line : LineRef) : List UInt8 :=
  (if text = [] then text else text ++ [separator]) ++ line.1.text

/-- The texts of lines, put together. -/
def joinTexts (separator : UInt8) (lines : List LineRef) : List UInt8 :=
  lines.foldl (appendText separator) []

/-- What the texts of a cell are put together with. -/
def space : UInt8 := 0x20

/-! ### Recognized cells -/

/-- Whether a cell holds the center of a line. -/
def StructuredCell.holds (cell : StructuredCell) (line : LineRef) : Bool :=
  cell.box.contains (boundingBox line.1).center

/-- The cells with the lines they hold, where every cell takes its lines from those that the
cells before it left. -/
def takeLines : List StructuredCell → List LineRef → List (StructuredCell × List LineRef)
  | [], _ => []
  | cell :: cells, lines =>
    (cell, lines.filter cell.holds) :: takeLines cells (lines.filter fun line => !cell.holds line)

/-- A recognized cell with the text of its lines. -/
def structuredCell (cell : StructuredCell) (lines : List LineRef) : TableCell where
  rowSpan := cell.rowSpan
  colSpan := cell.colSpan
  startRowOffsetIdx := cell.row
  endRowOffsetIdx := cell.row + cell.rowSpan
  startColOffsetIdx := cell.col
  endColOffsetIdx := cell.col + cell.colSpan
  columnHeader := cell.header
  text := joinTexts space lines
  bbox := some cell.box

/-- Whether a cell takes up a position of the grid. -/
def StructuredCell.covers (cell : StructuredCell) (row col : ℕ) : Bool :=
  cell.row ≤ row && row < cell.row + cell.rowSpan && cell.col ≤ col &&
    col < cell.col + cell.colSpan

/-- `fill_structured_table_data`.  The first cell that takes up a position owns it. -/
def fillStructuredTableData (page : OcrPage) (region : RegionRef) : TableData :=
  let cells := region.1.structuredCells
  let rows := cells.foldl (fun rows cell => max rows (cell.row + cell.rowSpan)) 0
  let cols := cells.foldl (fun cols cell => max cols (cell.col + cell.colSpan)) 0
  let filled := takeLines cells (fromTop (linesOf page region))
  let position row col :=
    match filled.find? fun (cell, _) => cell.covers row col with
    | some (cell, lines) => structuredCell cell lines
    | none => .unit row col
  { numRows := rows
    numCols := cols
    tableCells := filled.map fun (cell, lines) => structuredCell cell lines
    grid := (List.range rows).map fun row => (List.range cols).map (position row) }

/-- The cells hold, each once, the lines that some cell holds. -/
theorem takeLines_perm (cells : List StructuredCell) (lines : List LineRef) :
  ((takeLines cells lines).flatMap Prod.snd).Perm
    (lines.filter fun line => cells.any (·.holds line))
  := by
  induction cells generalizing lines with
  | nil => simp [takeLines]
  | cons cell cells ih =>
    have hrest := (ih (lines.filter fun line => !cell.holds line)).append_left
      (lines.filter cell.holds)
    rw [filter_filter] at hrest
    have hdisjoint : ∀ line ∈ lines, cell.holds line →
        (cells.any (·.holds line) && !cell.holds line) = false := by
      intro line _ hline
      simp [hline]
    apply (hrest.trans (Lists.filter_append_filter_perm hdisjoint)).trans
    apply List.Perm.of_eq
    apply filter_congr
    intro line _
    cases hline : cell.holds line <;> simp [hline]

/-! ### The data -/

/-- A position of the grid with the text of its lines. -/
def gridCell (cell : TableCellGeometry) : TableCell :=
  { TableCell.unit cell.row cell.col with
    text := joinTexts space cell.lineIndices
    bbox := if cell.lineIndices = [] then none else some cell.box }

/-- `fill_table_data`. -/
def fillTableData (page : OcrPage) (region : RegionRef) : TableData :=
  if region.1.structuredCells ≠ [] then fillStructuredTableData page region
  else
    let grid := buildTableGrid page region
    { numRows := grid.rows
      numCols := grid.cols
      tableCells := grid.cells.map gridCell
      grid := (List.range grid.rows).map fun row =>
        (grid.cells.filter (·.row = row)).map gridCell }

/-- `table_claimed_lines`: whether the table carries a line of the page. -/
def claimsLine (page : OcrPage) (region : RegionRef) (line : LineRef) : Bool :=
  if region.1.structuredCells ≠ [] then
    line.1.readable && regionForLine page line.1 = some region &&
      region.1.structuredCells.any (·.holds line)
  else (buildTableGrid page region).cells.any (line ∈ ·.lineIndices)

/-- A table claims only lines that belong to it. -/
theorem regionForLine_of_claimsLine {page : OcrPage} {region : RegionRef} {line : LineRef}
    (h : claimsLine page region line) :
  regionForLine page line.1 = some region
  := by
  unfold claimsLine at h
  split at h
  case isTrue =>
    simp only [Bool.and_eq_true, decide_eq_true_eq] at h
    exact h.1.2
  case isFalse =>
    obtain ⟨cell, hcell, hline⟩ := any_eq_true.mp h
    have hmem := (buildTableGrid_perm page region).mem_iff.mp
      (mem_flatMap.mpr ⟨cell, hcell, of_decide_eq_true hline⟩)
    simpa using (mem_filter.mp hmem).2

/-- The cells of a table, each with lines whose texts it carries, hold the lines that the table
claims, each once. -/
theorem exists_cellLines (page : OcrPage) (region : RegionRef) :
  ∃ cellLines : List (List LineRef),
    (fillTableData page region).tableCells.map TableCell.text =
        cellLines.map (joinTexts space) ∧
      cellLines.flatten.Perm (page.readableLines.filter (claimsLine page region))
  := by
  by_cases h : region.1.structuredCells = []
  · use (buildTableGrid page region).cells.map TableCellGeometry.lineIndices
    constructor
    · simp [fillTableData, h, gridCell, Function.comp_def]
    · rw [← flatMap_def]
      have hperm := buildTableGrid_perm page region
      apply hperm.trans
      apply List.Perm.of_eq
      apply filter_congr
      intro line hline
      rw [Bool.eq_iff_iff, decide_eq_true_eq]
      constructor
      · intro hregion
        have hmem := hperm.mem_iff.mpr (mem_filter.mpr ⟨hline, by simpa using hregion⟩)
        obtain ⟨cell, hcell, hin⟩ := mem_flatMap.mp hmem
        rw [claimsLine, if_neg (by simp [h])]
        exact any_eq_true.mpr ⟨cell, hcell, by simpa using hin⟩
      · exact regionForLine_of_claimsLine
  · use (takeLines region.1.structuredCells (fromTop (linesOf page region))).map Prod.snd
    constructor
    · simp [fillTableData, h, fillStructuredTableData, structuredCell, Function.comp_def]
    · rw [← flatMap_def]
      apply (takeLines_perm _ _).trans
      apply ((Sorting.sortOn_perm _ _).filter _).trans
      rw [linesOf, filter_filter]
      apply List.Perm.of_eq
      apply filter_congr
      intro line hline
      rw [claimsLine, if_pos h, (mem_filter.mp hline).2, Bool.true_and, Bool.and_comm]

end GRParse.Assembly
