import GRParse.Lib.KeyedList
import Mathlib.Algebra.Order.Ring.Int

/-!
# The cells of a workbook

A routed workbook is read twice.  `adopt_table` gives a table of the libreoffice document the
cells that calamine read on the same sheet, keeps the libreoffice cells that something is
anchored in, and spreads the merged areas of libreoffice where calamine read none.

A merged area is spread by places: its top-left cell gets the spans, and the other cells that
start inside it go.  `applyMergedAreas_eq` says so at once for every cell.
-/

namespace GRParse.Workbook

open KeyedList List

/-! ### Tables -/

/-- The kinds of values.  What is copied unread is of a type of its own. -/
inductive ValueKind (ρ : Type)
  | unset
  | number (value : Float)
  | formula (source : List UInt8)
  | other (value : ρ)

structure CellValue (ρ : Type) where
  kind : ValueKind ρ := .unset
  numberFormat : Option (List UInt8) := none
  formulaSource : Option (List UInt8) := none
  rest : Option ρ := none

structure TableCell (ρ : Type) where
  rowSpan : ℤ := 0
  colSpan : ℤ := 0
  startRow : ℤ := 0
  endRow : ℤ := 0
  startCol : ℤ := 0
  endCol : ℤ := 0
  text : List UInt8 := []
  columnHeader : Bool := false
  rowHeader : Bool := false
  rowSection : Bool := false
  ref : Option (List UInt8) := none
  value : Option (CellValue ρ) := none
  spans : List ρ := []
  rest : Option ρ := none

structure TableData (ρ : Type) where
  tableCells : List (TableCell ρ) := []
  numRows : ℤ := 0
  numCols : ℤ := 0
  grid : List ρ := []
  columns : List ρ := []
  declaredTables : List ρ := []
  rest : Option ρ := none

structure MergedArea where
  row : ℤ := 0
  column : ℤ := 0
  rows : ℤ := 1
  columns : ℤ := 1
  deriving DecidableEq

/-- A row and a column. -/
abbrev Position := ℤ × ℤ

variable {ρ : Type}

namespace TableCell

/-- `position_of`. -/
def position (cell : TableCell ρ) : Position :=
  (cell.startRow, cell.startCol)

def setSpans (cell : TableCell ρ) (rows columns : ℤ) : TableCell ρ :=
  { cell with
    rowSpan := rows
    colSpan := columns
    endRow := cell.startRow + rows
    endCol := cell.startCol + columns }

/-- A cell that is not marked. -/
def clearMarks (cell : TableCell ρ) : TableCell ρ :=
  { cell with columnHeader := false, rowHeader := false, rowSection := false }

/-- Whether a cell spans more than one place. -/
def isMerged (cell : TableCell ρ) : Bool :=
  cell.rowSpan > 1 || cell.colSpan > 1

end TableCell

/-! ### Merged areas -/

namespace MergedArea

def topLeft (area : MergedArea) : Position :=
  (area.row, area.column)

/-- Whether an area is more than one place. -/
def isPlaced (area : MergedArea) : Bool :=
  !(area.rows < 1 || area.columns < 1 || (area.rows = 1 && area.columns = 1))

/-- The places of an area but its top-left one. -/
def inside (area : MergedArea) : List Position :=
  ((List.range area.rows.toNat).flatMap fun (row : ℕ) =>
    (List.range area.columns.toNat).map fun (column : ℕ) =>
      (area.row + row, area.column + column)).filter (· ≠ area.topLeft)

end MergedArea

/-- What the loop of `apply_merged_areas` does for an area: with the index of the cells as they
were, and the places that are covered so far. -/
def spread (indexAt : Position → Option ℕ) (state : List (TableCell ρ) × List ℕ)
    (area : MergedArea) : List (TableCell ρ) × List ℕ :=
  if area.isPlaced then
    match indexAt area.topLeft with
    | none => state
    | some place =>
      (state.1.modify place (·.setSpans area.rows area.columns),
        state.2 ++ area.inside.filterMap indexAt)
  else state

def applyMergedAreas (cells : List (TableCell ρ)) (areas : List MergedArea) : List (TableCell ρ) :=
  if areas = [] then cells
  else
    let (spanned, covered) := areas.foldl (spread (indexAt TableCell.position cells)) (cells, [])
    if covered = [] then spanned else Kept.keepFrom (fun place => decide (place ∉ covered)) 0 spanned

/-! ### Adoption -/

/-- Whether two cells show one number, in a format that the first one has. -/
def sameFormattedNumber (libre calamine : Option (CellValue ρ)) : Bool :=
  match libre, calamine with
  | some libre, some calamine =>
    libre.numberFormat.isSome &&
      match libre.kind, calamine.kind with
      | .number shown, .number stored => shown == stored
      | _, _ => false
  | _, _ => false

/-- The formula behind a value. -/
def CellValue.formula (value : CellValue ρ) : Option (List UInt8) :=
  match value.formulaSource with
  | some source => some source
  | none =>
    match value.kind with
    | .formula source => some source
    | _ => none

/-- Calamine's value with the number format and the formula that libreoffice has. -/
def adoptedValue (libre calamine : Option (CellValue ρ)) : Option (CellValue ρ) :=
  let value :=
    match libre.bind CellValue.numberFormat with
    | none => calamine
    | some format =>
      if (calamine.bind CellValue.numberFormat).isSome then calamine
      else some { calamine.getD {} with numberFormat := some format }
  match libre.bind CellValue.formula with
  | none => value
  | some source => some { value.getD {} with formulaSource := some source }

/-- `adopted_cell`. -/
def adoptedCell (calamine : TableCell ρ) : Option (TableCell ρ) → TableCell ρ
  | none => calamine
  | some libre =>
    let placed := { libre with startRow := calamine.startRow, startCol := calamine.startCol }
    let cell := (placed.setSpans (max 1 calamine.rowSpan) (max 1 calamine.colSpan)).clearMarks
    let cell :=
      if sameFormattedNumber libre.value calamine.value then cell
      else
        { cell with
          spans := if cell.text = calamine.text then cell.spans else []
          text := calamine.text }
    { cell with value := adoptedValue libre.value calamine.value }

/-- The merged areas of a table. -/
def mergesOf (cells : List (TableCell ρ)) : List MergedArea :=
  (cells.filter TableCell.isMerged).map fun cell =>
    ⟨cell.startRow, cell.startCol, max 1 cell.rowSpan, max 1 cell.colSpan⟩

/-- The libreoffice cell at the place of a calamine cell. -/
def libreAt (libre : TableData ρ) (cell : TableCell ρ) : Option (TableCell ρ) :=
  libre.tableCells.find? fun other => other.position = cell.position

/-- Calamine's cells over those of libreoffice. -/
def readCells (calamine libre : TableData ρ) : List (TableCell ρ) :=
  calamine.tableCells.map fun cell => adoptedCell cell (libreAt libre cell)

/-- Positions are compared by their numbers. -/
local instance lawfulPosition : LawfulBEq Position := inferInstance

/-- The libreoffice cells that something is anchored in, where no cell is. -/
def anchors (cells : List (TableCell ρ)) (libre : TableData ρ) : List (TableCell ρ) :=
  (libre.tableCells.filter fun cell =>
    cell.ref.isSome && cell.position ∉ cells.map TableCell.position).map TableCell.clearMarks

/-- The cells that are adopted, before merged areas are spread. -/
def adoptedCells (calamine libre : TableData ρ) : List (TableCell ρ) :=
  readCells calamine libre ++ anchors (readCells calamine libre) libre

/-- The cells that `adopt_table` leaves. -/
def placedCells (calamine libre : TableData ρ) : List (TableCell ρ) :=
  if calamine.tableCells.any TableCell.isMerged then adoptedCells calamine libre
  else applyMergedAreas (adoptedCells calamine libre) (mergesOf libre.tableCells)

/-- `adopt_table`. -/
def adoptTable (calamine libre : TableData ρ) : TableData ρ :=
  let cells := placedCells calamine libre
  let rows := (cells.map TableCell.endRow).foldl max calamine.numRows
  let columns := (cells.map TableCell.endCol).foldl max calamine.numCols
  { libre with
    tableCells := cells
    numRows := rows
    numCols := columns
    grid := []
    declaredTables := calamine.declaredTables
    columns := if (libre.columns.length : ℤ) ≠ columns then [] else libre.columns }

/-! ### Spreading by places -/

/-- A cell with the spans of an area that it is the top-left cell of. -/
def spanBy (cell : TableCell ρ) (area : MergedArea) : TableCell ρ :=
  if area.isPlaced ∧ cell.position = area.topLeft then cell.setSpans area.rows area.columns
  else cell

/-- A cell with the spans of the areas that it is the top-left cell of. -/
def spanned (areas : List MergedArea) (cell : TableCell ρ) : TableCell ρ :=
  areas.foldl spanBy cell

/-- The places that the areas cover whose top-left cell is there. -/
def hiddenPlaces (cells : List (TableCell ρ)) (areas : List MergedArea) : List Position :=
  (areas.filter fun area =>
    area.isPlaced && area.topLeft ∈ cells.map TableCell.position).flatMap MergedArea.inside

theorem spanBy_position (cell : TableCell ρ) (area : MergedArea) :
  (spanBy cell area).position = cell.position
  := by
  unfold spanBy
  split <;> rfl

@[simp]
theorem spanned_position (areas : List MergedArea) (cell : TableCell ρ) :
  (spanned areas cell).position = cell.position
  := by
  induction areas using reverseRecOn with
  | nil => rfl
  | append_singleton areas area ih =>
    rw [spanned, foldl_append]
    exact (spanBy_position _ area).trans ih

theorem spanned_concat (areas : List MergedArea) (area : MergedArea) (cell : TableCell ρ) :
  spanned (areas ++ [area]) cell = spanBy (spanned areas cell) area
  := by
  simp [spanned]

/-- A cell that no area begins at stays as it is, and another gets the spans of an area. -/
theorem spanned_cases (areas : List MergedArea) (cell : TableCell ρ) :
  (∃ area ∈ areas, area.isPlaced ∧ cell.position = area.topLeft ∧
    spanned areas cell = cell.setSpans area.rows area.columns) ∨
  ((∀ area ∈ areas, area.isPlaced → cell.position ≠ area.topLeft) ∧ spanned areas cell = cell)
  := by
  induction areas using reverseRecOn with
  | nil => exact .inr ⟨by simp, rfl⟩
  | append_singleton areas area ih =>
    rw [spanned_concat, spanBy, spanned_position]
    by_cases hat : area.isPlaced ∧ cell.position = area.topLeft
    · refine .inl ⟨area, by simp, hat.1, hat.2, ?_⟩
      rw [if_pos hat]
      rcases ih with ⟨other, -, -, -, hspanned⟩ | ⟨-, hspanned⟩
      · rw [hspanned]
        rfl
      · rw [hspanned]
    · rw [if_neg hat]
      rcases ih with ⟨other, hother, hplaced, hposition, hspanned⟩ | ⟨hnone, hspanned⟩
      · exact .inl ⟨other, mem_append_left _ hother, hplaced, hposition, hspanned⟩
      · refine .inr ⟨?_, hspanned⟩
        intro other hother hplaced hposition
        rcases mem_append.mp hother with hother | hother
        · exact hnone other hother hplaced hposition
        · obtain rfl := mem_singleton.mp hother
          exact hat ⟨hplaced, hposition⟩

theorem map_spanned_nil (cells : List (TableCell ρ)) :
  cells.map (spanned []) = cells
  := map_id cells

theorem hiddenPlaces_concat (cells : List (TableCell ρ)) (areas : List MergedArea)
    (area : MergedArea) :
  hiddenPlaces cells (areas ++ [area]) = hiddenPlaces cells areas ++
    if area.isPlaced ∧ area.topLeft ∈ cells.map TableCell.position then area.inside else []
  := by
  rw [hiddenPlaces, filter_append, flatMap_append, ← hiddenPlaces, filter_cons]
  by_cases h : area.isPlaced ∧ area.topLeft ∈ cells.map TableCell.position
  · rw [if_pos h, if_pos (by simpa using h)]
    simp
  · rw [if_neg h, if_neg (by simpa using h)]
    rfl

theorem map_spanned_positions (areas : List MergedArea) (cells : List (TableCell ρ)) :
  (cells.map (spanned areas)).map TableCell.position = cells.map TableCell.position
  := by
  rw [map_map]
  apply map_congr_left
  intro cell _
  apply spanned_position

/-- The loop over the areas, by places. -/
theorem foldl_spread {cells : List (TableCell ρ)} (h : (cells.map TableCell.position).Nodup)
    (areas : List MergedArea) :
  areas.foldl (spread (indexAt TableCell.position cells)) (cells, [])
    = (cells.map (spanned areas),
      (hiddenPlaces cells areas).filterMap (indexAt TableCell.position cells))
  := by
  induction areas using reverseRecOn with
  | nil =>
    rw [map_spanned_nil]
    rfl
  | append_singleton areas area ih =>
    rw [foldl_append, ih, foldl_cons, foldl_nil]
    have hpositions := map_spanned_positions areas cells
    have hspanned : cells.map (spanned (areas ++ [area]))
        = (cells.map (spanned areas)).map fun cell => spanBy cell area := by
      rw [map_map]
      apply map_congr_left
      intro cell _
      apply spanned_concat
    rw [hspanned, spread, hiddenPlaces_concat, filterMap_append]
    by_cases hplaced : area.isPlaced
    · have hspan : ∀ cell : TableCell ρ, spanBy cell area
          = if cell.position = area.topLeft then cell.setSpans area.rows area.columns else cell := by
        intro cell
        simp [spanBy, hplaced]
      have hindex := indexAt_congr hpositions area.topLeft
      simp only [hspan]
      cases hplace : indexAt TableCell.position cells area.topLeft with
      | none =>
        rw [map_of_indexAt_eq_none (hindex.trans hplace)]
        have habsent : area.topLeft ∉ cells.map TableCell.position := by
          simpa using indexAt_eq_none.mp hplace
        simp [hplaced, habsent]
      | some place =>
        rw [← modify_indexAt (hpositions ▸ h) (hindex.trans hplace)]
        have hpresent : area.topLeft ∈ cells.map TableCell.position := by
          obtain ⟨cell, hcell, hkey⟩ := (indexAt_eq_some h).mp hplace
          exact hkey ▸ mem_map_of_mem (mem_of_getElem? hcell)
        simp [hplaced, hpresent]
    · have hspan : ∀ cell : TableCell ρ, spanBy cell area = cell := by
        intro cell
        simp [spanBy, hplaced]
      simp only [hspan, map_id']
      simp [hplaced]

/-- Spreading areas gives every cell its spans, and drops the cells in the places covered. -/
theorem applyMergedAreas_eq {cells : List (TableCell ρ)}
    (h : (cells.map TableCell.position).Nodup) (areas : List MergedArea) :
  applyMergedAreas cells areas
    = (cells.filter fun cell => cell.position ∉ hiddenPlaces cells areas).map (spanned areas)
  := by
  have hpositions := map_spanned_positions areas cells
  have hkeep : Kept.keepFrom (fun place => decide (place ∉ (hiddenPlaces cells areas).filterMap
      (indexAt TableCell.position cells))) 0 (cells.map (spanned areas))
        = (cells.filter fun cell => cell.position ∉ hiddenPlaces cells areas).map (spanned areas) := by
    rw [← funext (indexAt_congr hpositions), keepFrom_indexAt (hpositions ▸ h), filter_map]
    simp only [Function.comp_def, spanned_position]
  unfold applyMergedAreas
  split
  case isTrue hnil =>
    subst hnil
    simp [hiddenPlaces, map_spanned_nil]
  case isFalse =>
    rw [foldl_spread h]
    dsimp only
    split
    case isTrue hcovered =>
      rw [← hkeep, hcovered]
      apply (Kept.keepFrom_all _ _ _).symm
      simp
    case isFalse => exact hkeep

end GRParse.Workbook
