import GRParse.Document.References
import Mathlib.Tactic.Linarith

/-!
# Grids of tables

A table is rendered from a grid of its cells.  How many rows and columns it declares, and where
its cells start and end, are numbers of the sender, so that a grid keeps the leading rows and
columns that the document can still pay for.  A spanned cell is written at every position it
reaches, or, when its repeats are too expensive, at the first one.

Numbers are those of the code: what overflows them, or leaves the grid, has no result.
-/

namespace GRParse.Grids

/-! ### Numbers -/

/-- A number that an `int64_t` can hold. -/
def asInt64 (value : ℤ) : Option ℤ :=
  if -2 ^ 63 ≤ value ∧ value < 2 ^ 63 then some value else none

/-! ### The budget -/

def kMaxGridPositions : ℕ := 2 ^ 22

def kDocumentPositions : ℕ := 2 ^ 23

def kDocumentRepeatPositions : ℕ := 2 ^ 23

def kDocumentRepeatBytes : ℕ := 2 ^ 26

/-- What the tables of a document may still cost. -/
structure GridBudget where
  remaining : ℕ := kDocumentPositions
  repeatPositions : ℕ := kDocumentRepeatPositions
  repeatBytes : ℕ := kDocumentRepeatBytes
  truncated : Bool := false
  remaining_le : remaining ≤ kDocumentPositions := by exact le_rfl
  repeatPositions_le : repeatPositions ≤ kDocumentRepeatPositions := by exact le_rfl
  repeatBytes_le : repeatBytes ≤ kDocumentRepeatBytes := by exact le_rfl

namespace GridBudget

def spend (budget : GridBudget) (positions : ℕ) : GridBudget :=
  { budget with
    remaining := budget.remaining - min positions budget.remaining
    remaining_le := (Nat.sub_le _ _).trans budget.remaining_le }

/-- `spend_repeats`: whether the extra positions of a cell with a text of some bytes are paid. -/
def spendRepeats (budget : GridBudget) (repeats : ℤ) (bytes : ℕ) : Option (Bool × GridBudget) :=
  if repeats ≤ 0 then some (true, budget)
  else if repeats > budget.repeatPositions then some (false, budget)
  else if bytes > 0 ∧ repeats > budget.repeatBytes / bytes then some (false, budget)
  else do
    let repeated ← asInt64 (repeats * bytes)
    some (true, { budget with
      repeatPositions := budget.repeatPositions - repeats.toNat
      repeatBytes := budget.repeatBytes - repeated.toNat
      repeatPositions_le := (Nat.sub_le _ _).trans budget.repeatPositions_le
      repeatBytes_le := (Nat.sub_le _ _).trans budget.repeatBytes_le })

/-- `first_truncation`, but for the line it prints. -/
def truncate (budget : GridBudget) : GridBudget :=
  { budget with truncated := true }

end GridBudget

/-- `kept_dimensions`: the rows and columns that are kept of those declared. -/
def keptDimensions (rows cols : ℕ) (budget : GridBudget) : Option ((ℕ × ℕ) × GridBudget) := do
  let allowance := min kMaxGridPositions budget.remaining
  let positions ← asInt64 (rows * cols)
  if positions ≤ allowance then some ((rows, cols), budget.spend positions.toNat)
  else
    let keptCols := min cols allowance
    let keptRows := if keptCols = 0 then 0 else allowance / keptCols
    let kept ← asInt64 (keptRows * keptCols)
    some ((keptRows, keptCols), budget.truncate.spend kept.toNat)

/-! ### Reaches -/

/-- The indexes of a span. -/
def indexes (span : ℤ × ℤ) : List ℤ :=
  (List.range (span.2 - span.1).toNat).map fun (n : ℕ) => span.1 + n

/-- The kept indexes that a range of offsets reaches, those of negative offsets first. -/
structure Reach where
  wrapped : ℤ × ℤ := (0, 0)
  direct : ℤ × ℤ := (0, 0)

namespace Reach

def count (reach : Reach) : Option ℤ := do
  let wrapped ← asInt (reach.wrapped.2 - reach.wrapped.1)
  let direct ← asInt (reach.direct.2 - reach.direct.1)
  asInt (max 0 wrapped + max 0 direct)

def first (reach : Reach) : ℤ :=
  if reach.wrapped.1 < reach.wrapped.2 then reach.wrapped.1 else reach.direct.1

/-- `each`: the indexes in the order they are visited. -/
def each (reach : Reach) : List ℤ :=
  indexes reach.wrapped ++ indexes reach.direct

end Reach

/-! ### Tables -/

/-- A cell: where it starts and ends, what it says, and what the exports write of it besides: the
rows and columns it claims to span, whether it heads others, and the item that it holds. -/
structure TableCell where
  startRow : Int32
  endRow : Int32
  startCol : Int32
  endCol : Int32
  text : List UInt8
  rowSpan : Int32 := 0
  colSpan : Int32 := 0
  columnHeader : Bool := false
  rowHeader : Bool := false
  rowSection : Bool := false
  ref : Option String := none
  deriving DecidableEq

/-- A table.  A list of cells is as long as an `int` can say. -/
structure TableData where
  tableCells : List TableCell := []
  numRows : Int32 := 0
  numCols : Int32 := 0
  grid : List (List TableCell) := []
  length_grid : grid.length ≤ intMax := by decide
  length_row : ∀ row ∈ grid, row.length ≤ intMax := by decide

/-- The cells of a table by their rows and columns. -/
abbrev Grid := List (List (Option TableCell))

/-- A row and a column. -/
abbrev Position := ℤ × ℤ

/-- A grid while its cells are placed: with the rows and columns that were kept, and the positions
that each cell was written at. -/
structure Sheet where
  grid : Grid
  budget : GridBudget
  kept : ℕ × ℕ := (0, 0)
  writes : List (TableCell × List Position) := []

/-- A cell at a position, unless that is outside the grid. -/
def write (cell : TableCell) (grid : Grid) (position : Position) : Option Grid :=
  if position.1 < 0 ∨ position.2 < 0 then none
  else do
    let row ← grid[position.1.toNat]?
    if position.2.toNat < row.length then
      some (grid.set position.1.toNat (row.set position.2.toNat (some cell)))
    else none

/-- The positions that two reaches cover, row by row. -/
def visits (rows cols : Reach) : List Position :=
  rows.each.flatMap fun row => cols.each.map fun col => (row, col)

/-- `place_cell`. -/
def placeCell (sheet : Sheet) (cell : TableCell) (rows cols : Reach) : Option Sheet := do
  let rowCount ← rows.count
  let colCount ← cols.count
  let covered ← asInt64 (rowCount * colCount)
  if covered = 0 then return sheet
  let repeats ← asInt64 (covered - 1)
  let (paid, budget) ← sheet.budget.spendRepeats repeats cell.text.length
  let (positions, budget) :=
    if paid then (visits rows cols, budget) else ([(rows.first, cols.first)], budget.truncate)
  let grid ← positions.foldlM (write cell) sheet.grid
  return { sheet with grid, budget, writes := sheet.writes ++ [(cell, positions)] }

/-- The cells of a table, placed one after the other. -/
def placeCells (rowReach colReach : TableCell → Option Reach) (sheet : Sheet)
    (cells : List TableCell) : Option Sheet :=
  cells.foldlM (fun sheet cell => do
    let rows ← rowReach cell
    let cols ← colReach cell
    placeCell sheet cell rows cols) sheet

/-- A grid without cells. -/
def blank (rows cols : ℕ) : Grid :=
  List.replicate rows (List.replicate cols none)

/-- How far a cell of a flat list reaches: one index at least. -/
def flatReach (start stop : Int32) (kept : ℕ) : Option Reach := do
  let next ← asInt (start.toInt + 1)
  some { direct := (max 0 start.toInt, min kept (max stop.toInt next)) }

/-- `table_grid`. -/
def tableGrid (data : TableData) (budget : GridBudget) : Option Sheet := do
  if !data.grid.isEmpty then
    let widest := data.grid.foldl (fun widest row => max widest row.length) 0
    let ((rows, cols), budget) ← keptDimensions data.grid.length widest budget
    return {
      grid := (data.grid.take rows).map fun row => (row.take cols).map some
      budget, kept := (rows, cols) }
  if data.numRows.toInt ≤ 0 ∨ data.numCols.toInt ≤ 0 then return { grid := [], budget }
  let ((rows, cols), budget) ←
    keptDimensions data.numRows.toInt.toNat data.numCols.toInt.toNat budget
  placeCells (fun cell => flatReach cell.startRow cell.endRow rows)
    (fun cell => flatReach cell.startCol cell.endCol cols)
    { grid := blank rows cols, budget, kept := (rows, cols) } data.tableCells

/-- `reach`: the kept indexes of a range, where a negative offset counts back from the size. -/
def derivedReach (start stop : Int32) (size kept : ℕ) : Option Reach := do
  let stop := min stop.toInt size
  let start := min start.toInt size
  let front ← asInt (-size)
  let back ← asInt (kept - size)
  let wrappedBegin := max start front
  let wrappedEnd := min stop (min 0 back)
  let direct := (max start 0, min stop kept)
  if wrappedBegin < wrappedEnd then
    let first ← asInt (wrappedBegin + size)
    let last ← asInt (wrappedEnd + size)
    some { wrapped := (first, last), direct }
  else some { direct }

/-- `derived_table_grid`. -/
def derivedTableGrid (data : TableData) (budget : GridBudget) : Option Sheet := do
  let rows := (max data.numRows.toInt 0).toNat
  let cols := (max data.numCols.toInt 0).toNat
  let ((keptRows, keptCols), budget) ← keptDimensions rows cols budget
  placeCells (fun cell => derivedReach cell.startRow cell.endRow rows keptRows)
    (fun cell => derivedReach cell.startCol cell.endCol cols keptCols)
    { grid := blank keptRows keptCols, budget, kept := (keptRows, keptCols) } data.tableCells

end GRParse.Grids
