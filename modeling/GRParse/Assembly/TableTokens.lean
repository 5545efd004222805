import GRParse.Assembly.TableData
import GRParse.Office.Arena
import Mathlib.Data.List.DropRight
import Mathlib.Data.List.GetD

/-!
# The cells of a decoded table

The structure model writes a table down as a list of tokens, with a box for each token that opens a
cell.  The cells are put into a grid: each takes the first run of free positions of its row that is
as wide as it is, and reserves the positions that it takes up in the rows below.
-/

namespace GRParse.Assembly

open List StructuredCell

open Office (atoi)

/-- A token, one character for each byte. -/
abbrev Token := List Char

/-! ### The tokens -/

def kSectionOpen : Token := ['<', 't', 'h', 'e', 'a', 'd', '>']

def kSectionClose : Token := ['<', '/', 't', 'h', 'e', 'a', 'd', '>']

def kRow : Token := ['<', 't', 'r', '>']

/-- A cell that is closed at once. -/
def kWholeCell : Token := ['<', 't', 'd', '>', '<', '/', 't', 'd', '>']

/-- The start of a cell with spans. -/
def kCellStart : Token := ['<', 't', 'd']

def kCellOpen : Token := ['<', 't', 'd', '>']

def kCellClose : Token := ['<', '/', 't', 'd', '>']

def kColspan : Token := [' ', 'c', 'o', 'l', 's', 'p', 'a', 'n', '=']

def kRowspan : Token := [' ', 'r', 'o', 'w', 's', 'p', 'a', 'n', '=']

def isCellOpen (token : Token) : Bool :=
  token = kCellStart || token = kCellOpen || token = kWholeCell

/-- What stands between the first quote of a token and the last. -/
def quoted (token : Token) : List Char :=
  ((token.dropWhile (· != '"')).tail.rdropWhile (· != '"')).dropLast

def parseSpan (token : Token) : ℕ :=
  if quoted token = [] then 1 else (max 1 (min 20 (atoi (quoted token)))).toNat

/-! ### The grid -/

/-- `resize`, to at least so many elements. -/
def grow {α : Type} (count : ℕ) (fill : α) (l : List α) : List α :=
  l ++ List.replicate (count - l.length) fill

/-- Whether a position is reserved. -/
def taken (occupied : List (List Bool)) (row col : ℕ) : Bool :=
  (occupied.getD row []).getD col false

/-- The columns of a row, with a run of them reserved. -/
def occupyRow (col cspan : ℕ) (columns : List Bool) : List Bool :=
  (grow (col + cspan) false columns).mapIdx fun c reserved =>
    reserved || (col ≤ c && c < col + cspan)

/-- The grid, with a rectangle reserved. -/
def occupy (row col rspan cspan : ℕ) (occupied : List (List Bool)) : List (List Bool) :=
  (grow (row + rspan) [] occupied).mapIdx fun r columns =>
    if row ≤ r ∧ r < row + rspan then occupyRow col cspan columns else columns

/-- The search for a column that fits, over so many columns at most. -/
def firstFit (fits : ℕ → Bool) : ℕ → ℕ → ℕ
  | 0, col => col
  | count + 1, col => if fits col then col else firstFit fits count (col + 1)

/-- The columns that are searched. -/
def kColumnCap : ℕ := 1000

/-- Whether a run of columns is free. -/
def runFits (occupied : List (List Bool)) (row cspan col : ℕ) : Bool :=
  (List.range cspan).all fun offset => !taken occupied row (col + offset)

/-- The state of `structure_from_tokens`.  There is no row before the first row or cell. -/
structure Placing where
  cells : List StructuredCell := []
  occupied : List (List Bool) := []
  row : Option ℕ := none
  boxIndex : ℕ := 0
  inCell : Bool := false
  inThead : Bool := false
  colSpan : ℕ := 1
  rowSpan : ℕ := 1

/-- The column of the next cell of a width. -/
def Placing.column (state : Placing) (cspan : ℕ) : ℕ :=
  firstFit (runFits state.occupied (state.row.getD 0) cspan) kColumnCap 0

/-- `place_cell`. -/
def Placing.place (cellBoxes : List AxisAlignedBox) (state : Placing) (cspan rspan : ℕ) :
    Placing :=
  let row := state.row.getD 0
  let col := state.column cspan
  let box := cellBoxes.getD state.boxIndex {}
  { state with
    cells := state.cells ++
      [{ row, col, rowSpan := rspan, colSpan := cspan, header := state.inThead
         left := box.left, top := box.top, right := box.right, bottom := box.bottom }]
    occupied := occupy row col rspan cspan (grow (row + 1) [] state.occupied)
    row := some row
    boxIndex := state.boxIndex + 1 }

/-- One turn of the loop over the tokens. -/
def Placing.read (cellBoxes : List AxisAlignedBox) (state : Placing) (token : Token) : Placing :=
  if token = kSectionOpen then { state with inThead := true }
  else if token = kSectionClose then { state with inThead := false }
  else if token = kRow then { state with row := some (state.row.elim 0 (· + 1)) }
  else if token = kWholeCell then state.place cellBoxes 1 1
  else if token = kCellStart ∨ token = kCellOpen then
    { state with inCell := true, colSpan := 1, rowSpan := 1 }
  else if state.inCell && kColspan.isPrefixOf token then { state with colSpan := parseSpan token }
  else if state.inCell && kRowspan.isPrefixOf token then { state with rowSpan := parseSpan token }
  else if state.inCell && token = kCellClose then
    { state.place cellBoxes state.colSpan state.rowSpan with inCell := false }
  else state

structure TableStructure where
  rows : ℕ := 0
  cols : ℕ := 0
  cells : List StructuredCell := []

def structureFromTokens (tokens : List Token) (cellBoxes : List AxisAlignedBox) :
    TableStructure :=
  let state := tokens.foldl (Placing.read cellBoxes) {}
  { rows := state.occupied.length
    cols := (state.occupied.map List.length).foldl max 0
    cells := state.cells }

/-! ### Reserved positions -/

theorem getD_grow {α : Type} (count : ℕ) (fill : α) (l : List α) (index : ℕ) :
  (grow count fill l).getD index fill = l.getD index fill
  := by
  rw [grow]
  rcases lt_or_ge index l.length with hlt | hge
  · rw [getD_append _ _ _ _ hlt]
  · rw [getD_append_right _ _ _ _ hge, getD_eq_default _ _ hge]
    rcases lt_or_ge (index - l.length) (count - l.length) with hin | hout
    · exact getD_replicate _ hin
    · exact getD_eq_default _ _ (by simpa using hout)

theorem length_grow {α : Type} (count : ℕ) (fill : α) (l : List α) :
  (grow count fill l).length = max l.length count
  := by
  rw [grow, length_append, length_replicate]
  omega

theorem getD_occupyRow (col cspan : ℕ) (columns : List Bool) (c : ℕ) :
  (occupyRow col cspan columns).getD c false =
    (columns.getD c false || (col ≤ c && c < col + cspan))
  := by
  rw [occupyRow, getD_eq_getElem?_getD, getElem?_mapIdx,
    ← getD_grow (col + cspan) false columns, getD_eq_getElem?_getD]
  cases hget : (grow (col + cspan) false columns)[c]? with
  | some reserved => rfl
  | none =>
    have hlength := getElem?_eq_none_iff.mp hget
    rw [length_grow] at hlength
    have hout : ¬c < col + cspan := by omega
    simp [hout]

theorem getD_occupy (row col rspan cspan : ℕ) (occupied : List (List Bool)) (r : ℕ) :
  (occupy row col rspan cspan occupied).getD r [] =
    if row ≤ r ∧ r < row + rspan then occupyRow col cspan (occupied.getD r [])
    else occupied.getD r []
  := by
  rw [← getD_grow (row + rspan) [] occupied, occupy, getD_eq_getElem?_getD,
    getElem?_mapIdx]
  cases hget : (grow (row + rspan) [] occupied)[r]? with
  | some columns => rw [getD_eq_getElem?_getD, hget, Option.map_some, Option.getD_some,
      Option.getD_some]
  | none =>
    have hlength := getElem?_eq_none_iff.mp hget
    have hout : ¬(row ≤ r ∧ r < row + rspan) := by
      rw [length_grow] at hlength
      omega
    rw [if_neg hout, getD_eq_default _ _ hlength]
    rfl

theorem taken_occupy (row col rspan cspan : ℕ) (occupied : List (List Bool)) (r c : ℕ) :
  taken (occupy row col rspan cspan occupied) r c =
    (taken occupied r c || (row ≤ r && r < row + rspan && col ≤ c && c < col + cspan))
  := by
  rw [taken, taken, getD_occupy]
  split
  case isTrue hrow =>
    rw [getD_occupyRow]
    simp [hrow]
  case isFalse hrow =>
    have hfalse : (decide (row ≤ r) && decide (r < row + rspan)) = false := by
      simpa [Bool.and_eq_false_iff] using hrow
    rw [hfalse, Bool.false_and, Bool.false_and, Bool.or_false]

theorem taken_grow (count : ℕ) (occupied : List (List Bool)) (r c : ℕ) :
  taken (grow count [] occupied) r c = taken occupied r c
  := by rw [taken, getD_grow, taken]

/-- The search ends at the first column that fits, or at the cap. -/
theorem firstFit_spec (fits : ℕ → Bool) (count col : ℕ) :
  (∀ c, col ≤ c → c < firstFit fits count col → fits c = false) ∧
    (firstFit fits count col < col + count → fits (firstFit fits count col))
  := by
  induction count generalizing col with
  | zero =>
    constructor
    · intro c hle hlt
      exact absurd hlt (not_lt_of_ge hle)
    · intro hlt
      exact absurd hlt (lt_irrefl _)
  | succ count ih =>
    rw [firstFit]
    split
    case isTrue hfits =>
      constructor
      · intro c hle hlt
        exact absurd hlt (not_lt_of_ge hle)
      · exact fun _ => hfits
    case isFalse hfits =>
      obtain ⟨hbefore, hat⟩ := ih (col + 1)
      constructor
      · intro c hle hlt
        rcases Nat.eq_or_lt_of_le hle with rfl | hgt
        · simpa using hfits
        · exact hbefore c hgt hlt
      · intro hlt
        exact hat (by omega)

theorem runFits_iff {occupied : List (List Bool)} {row cspan col : ℕ} :
  runFits occupied row cspan col ↔ ∀ c, col ≤ c → c < col + cspan → taken occupied row c = false
  := by
  rw [runFits, all_eq_true]
  constructor
  · intro h c hle hlt
    have hoffset := h (c - col) (by simp; omega)
    rw [Nat.add_sub_cancel' hle] at hoffset
    simpa using hoffset
  · intro h offset hoffset
    rw [mem_range] at hoffset
    simpa using h (col + offset) (by omega) (by omega)

/-! ### Placing cells -/

theorem parseSpan_pos (token : Token) :
  0 < parseSpan token
  := by
  rw [parseSpan]
  split
  case isTrue => exact one_pos
  case isFalse => omega

theorem StructuredCell.covers_iff {cell : StructuredCell} {row col : ℕ} :
  cell.covers row col ↔ cell.row ≤ row ∧ row < cell.row + cell.rowSpan ∧ cell.col ≤ col ∧
    col < cell.col + cell.colSpan
  := by simp [covers, and_assoc]

/-- A cell and one that is placed later, short of the cap: they have no position in common, and
in one row the later one is behind the other or fits into a gap before it, narrower than it. -/
def StandsClear (cell later : StructuredCell) : Prop :=
  later.col < kColumnCap →
    (∀ row col, ¬(cell.covers row col ∧ later.covers row col)) ∧
    (cell.row = later.row → cell.col < later.col ∨
      later.colSpan < cell.colSpan ∧ later.col + later.colSpan ≤ cell.col)

/-- The cells take up the positions that are reserved, none of them in a row below the current
one at first, and none fits further to the left. -/
structure Placing.Placed (state : Placing) : Prop where
  covered : ∀ row col, taken state.occupied row col ↔ ∃ cell ∈ state.cells, cell.covers row col
  above : ∀ cell ∈ state.cells, ∃ row, state.row = some row ∧ cell.row ≤ row
  spans : ∀ cell ∈ state.cells, 0 < cell.rowSpan ∧ 0 < cell.colSpan
  blocked : ∀ cell ∈ state.cells, ∀ col < cell.col, ∃ c, col ≤ c ∧ c < col + cell.colSpan ∧
    taken state.occupied cell.row c
  apart : state.cells.Pairwise StandsClear
  boxIndex : state.boxIndex = state.cells.length
  span : 0 < state.rowSpan ∧ 0 < state.colSpan

theorem placed_nil :
  Placing.Placed {}
  := by
  constructor
  case covered => simp [taken]
  case above => simp
  case spans => simp
  case blocked => simp
  case apart => exact .nil
  case boxIndex => rfl
  case span => exact ⟨one_pos, one_pos⟩

variable {state : Placing} {cellBoxes : List AxisAlignedBox}

/-- A cell goes where no run is free before, and where one is, short of the cap. -/
theorem Placing.column_spec (state : Placing) (cspan : ℕ) :
  (∀ col < state.column cspan, ∃ c, col ≤ c ∧ c < col + cspan ∧
    taken state.occupied (state.row.getD 0) c) ∧
  (state.column cspan < kColumnCap → ∀ c, state.column cspan ≤ c →
    c < state.column cspan + cspan → taken state.occupied (state.row.getD 0) c = false)
  := by
  obtain ⟨hbefore, hat⟩ := firstFit_spec
    (runFits state.occupied (state.row.getD 0) cspan) kColumnCap 0
  constructor
  · intro col hcol
    have hfits : ¬runFits state.occupied (state.row.getD 0) cspan col := by
      rw [hbefore col (Nat.zero_le _) hcol]
      exact Bool.false_ne_true
    rw [runFits_iff] at hfits
    push Not at hfits
    simpa using hfits
  · intro hcap
    exact runFits_iff.mp (hat (hcap.trans_eq (Nat.zero_add _).symm))

/-- Placing a cell keeps the grid. -/
theorem Placing.Placed.place (h : state.Placed) {cspan rspan : ℕ} (hcspan : 0 < cspan)
    (hrspan : 0 < rspan) :
  (state.place cellBoxes cspan rspan).Placed
  := by
  obtain ⟨hbefore, hat⟩ := state.column_spec cspan
  have habove : ∀ cell ∈ state.cells, cell.row ≤ state.row.getD 0 := by
    intro cell hcell
    obtain ⟨row, hrow, hle⟩ := h.above cell hcell
    rwa [hrow]
  have hin : ∀ cell ∈ state.cells, ∀ col, (∃ row, state.row.getD 0 ≤ row ∧ cell.covers row col) →
      taken state.occupied (state.row.getD 0) col := by
    rintro cell hcell col ⟨row, hrow, hcovers⟩
    obtain ⟨-, hlt, hcols⟩ := covers_iff.mp hcovers
    rw [h.covered]
    exact ⟨cell, hcell, covers_iff.mpr
      ⟨habove cell hcell, hrow.trans_lt hlt, hcols⟩⟩
  have htaken : ∀ row col, taken (state.place cellBoxes cspan rspan).occupied row col ↔
      taken state.occupied row col ∨ state.row.getD 0 ≤ row ∧ row < state.row.getD 0 + rspan ∧
        state.column cspan ≤ col ∧ col < state.column cspan + cspan := by
    intro row col
    simp [Placing.place, taken_occupy, taken_grow, and_assoc]
  constructor
  case covered =>
    intro row col
    rw [htaken, h.covered]
    simp only [Placing.place, mem_append, mem_singleton, or_and_right, exists_or,
      exists_eq_left, covers_iff]
  case above =>
    intro cell hcell
    use state.row.getD 0, rfl
    rcases mem_append.mp hcell with hold | hnew
    · exact habove cell hold
    · rw [mem_singleton.mp hnew]
  case spans =>
    intro cell hcell
    rcases mem_append.mp hcell with hold | hnew
    · exact h.spans cell hold
    · rw [mem_singleton.mp hnew]
      exact ⟨hrspan, hcspan⟩
  case blocked =>
    intro cell hcell col hcol
    rcases mem_append.mp hcell with hold | hnew
    · obtain ⟨c, hle, hlt, htake⟩ := h.blocked cell hold col hcol
      exact ⟨c, hle, hlt, (htaken _ _).mpr (.inl htake)⟩
    · rw [mem_singleton.mp hnew] at hcol ⊢
      obtain ⟨c, hle, hlt, htake⟩ := hbefore col hcol
      exact ⟨c, hle, hlt, (htaken _ _).mpr (.inl htake)⟩
  case apart =>
    rw [Placing.place, pairwise_append]
    use h.apart, pairwise_singleton _ _
    intro cell hcell later hlater
    rw [mem_singleton.mp hlater]
    intro hcap
    have hrun := hat hcap
    -- The run was free, so nothing that was placed before reaches into it.
    have hfree : ∀ row col, ¬(cell.covers row col ∧ state.row.getD 0 ≤ row ∧
        state.column cspan ≤ col ∧ col < state.column cspan + cspan) := by
      rintro row col ⟨hcovers, hrow, hle, hlt⟩
      have htake := hin cell hcell col ⟨row, hrow, hcovers⟩
      rw [hrun col hle hlt] at htake
      cases htake
    constructor
    · rintro row col ⟨hcovers, hnew⟩
      obtain ⟨hrow, -, hle, hlt⟩ := covers_iff.mp hnew
      exact hfree row col ⟨hcovers, hrow, hle, hlt⟩
    · intro hrow
      rw [or_iff_not_imp_left]
      intro hnot
      obtain ⟨hrows, hcols⟩ := h.spans cell hcell
      have hcovers : cell.covers cell.row cell.col := covers_iff.mpr
        ⟨le_rfl, Nat.lt_add_of_pos_right hrows, le_rfl, Nat.lt_add_of_pos_right hcols⟩
      have hgap : state.column cspan + cspan ≤ cell.col := by
        by_contra hlt
        exact hfree cell.row cell.col ⟨hcovers, hrow.ge, not_lt.mp hnot, not_le.mp hlt⟩
      obtain ⟨c, hle, hlt, htake⟩ := h.blocked cell hcell (state.column cspan) (by omega)
      rw [hrow] at htake
      refine ⟨?_, hgap⟩
      by_contra hwide
      rw [hrun c hle (hlt.trans_le (Nat.add_le_add_left (not_lt.mp hwide) _))] at htake
      cases htake
  case boxIndex => simp [Placing.place, h.boxIndex]
  case span => exact h.span

/-- What a token may do: it opens a cell, or places one, or leaves the cells and the grid alone. -/
inductive Placing.Step (cellBoxes : List AxisAlignedBox) (state : Placing) (token : Token) :
    Placing → Prop
  | whole (htoken : token = kWholeCell) : Step cellBoxes state token (state.place cellBoxes 1 1)
  | opened (htoken : isCellOpen token) (hne : token ≠ kWholeCell) :
    Step cellBoxes state token { state with inCell := true, colSpan := 1, rowSpan := 1 }
  | closed (htoken : token = kCellClose) (hcell : state.inCell) :
    Step cellBoxes state token
      { state.place cellBoxes state.colSpan state.rowSpan with inCell := false }
  | other {row : Option ℕ} {inThead : Bool} {colSpan rowSpan : ℕ}
      (htoken : isCellOpen token = false) (hne : token = kCellClose → state.inCell = false)
      (hrow : ∀ before, state.row = some before → ∃ after, row = some after ∧ before ≤ after)
      (hspan : 0 < state.rowSpan ∧ 0 < state.colSpan → 0 < rowSpan ∧ 0 < colSpan) :
    Step cellBoxes state token { state with row, inThead, colSpan, rowSpan }

theorem Placing.step_read (cellBoxes : List AxisAlignedBox) (state : Placing) (token : Token) :
  Placing.Step cellBoxes state token (state.read cellBoxes token)
  := by
  have hsame : ∀ before, state.row = some before →
      ∃ after, state.row = some after ∧ before ≤ after := fun before h => ⟨before, h, le_rfl⟩
  unfold Placing.read
  split
  case isTrue h => exact .other (h ▸ rfl) (fun heq => absurd (h.symm.trans heq) (by decide)) hsame id
  split
  case isTrue h => exact .other (h ▸ rfl) (fun heq => absurd (h.symm.trans heq) (by decide)) hsame id
  split
  case isTrue h =>
    apply Placing.Step.other (h ▸ rfl) (fun heq => absurd (h.symm.trans heq) (by decide)) _ id
    intro before hbefore
    exact ⟨before + 1, by rw [hbefore]; rfl, Nat.le_succ _⟩
  split
  case isTrue h => exact .whole h
  case isFalse hwhole =>
  split
  case isTrue h => exact .opened (by simpa [isCellOpen, hwhole] using h) hwhole
  case isFalse hopen =>
  have hnot : isCellOpen token = false := by
    rw [not_or] at hopen
    simp [isCellOpen, hwhole, hopen]
  split
  case isTrue h =>
    apply Placing.Step.other hnot _ hsame fun hspan => ⟨hspan.1, parseSpan_pos token⟩
    rintro rfl
    revert h
    simp [kColspan, kCellClose]
  split
  case isTrue h =>
    apply Placing.Step.other hnot _ hsame fun hspan => ⟨parseSpan_pos token, hspan.2⟩
    rintro rfl
    revert h
    simp [kRowspan, kCellClose]
  split
  case isTrue h =>
    rw [Bool.and_eq_true, decide_eq_true_eq] at h
    exact .closed h.2 h.1
  case isFalse h =>
    exact .other hnot (fun heq => by simpa [heq] using h) hsame id

/-- A token keeps the grid. -/
theorem Placing.Placed.read (h : state.Placed) (token : Token) :
  (state.read cellBoxes token).Placed
  := by
  generalize hafter : state.read cellBoxes token = after
  have hstep := hafter ▸ state.step_read cellBoxes token
  cases hstep with
  | whole => exact h.place one_pos one_pos
  | opened => exact { h with span := ⟨one_pos, one_pos⟩ }
  | closed => exact { h.place h.span.2 h.span.1 with }
  | other _ _ hrow hspan =>
    refine { h with above := ?_, span := hspan h.span }
    intro cell hcell
    obtain ⟨before, hbefore, hle⟩ := h.above cell hcell
    obtain ⟨row, rfl, hlater⟩ := hrow before hbefore
    exact ⟨row, rfl, hle.trans hlater⟩

/-- The cells that are placed for a list of tokens keep the grid. -/
theorem Placing.Placed.foldl (h : state.Placed) (tokens : List Token) :
  (tokens.foldl (Placing.read cellBoxes) state).Placed
  := by
  induction tokens generalizing state with
  | nil => exact h
  | cons token tokens ih => exact ih (h.read token)

theorem le_foldl_max {l : List ℕ} {value : ℕ} (h : value ∈ l) (start : ℕ) :
  value ≤ l.foldl max start
  := (max?_eq_some_iff.mp (@max?_cons' _ start _ l)).2 value (mem_cons_of_mem _ h)

/-- The cells are inside the grid. -/
theorem Placing.Placed.inside (h : state.Placed) {cell : StructuredCell}
    (hcell : cell ∈ state.cells) :
  cell.row + cell.rowSpan ≤ state.occupied.length ∧
    cell.col + cell.colSpan ≤ (state.occupied.map List.length).foldl max 0
  := by
  obtain ⟨hrows, hcols⟩ := h.spans cell hcell
  have htaken : taken state.occupied (cell.row + cell.rowSpan - 1)
      (cell.col + cell.colSpan - 1) := by
    rw [h.covered]
    exact ⟨cell, hcell, covers_iff.mpr (by omega)⟩
  rcases lt_or_ge (cell.row + cell.rowSpan - 1) state.occupied.length with hrow | hout
  case inr =>
    rw [taken, getD_eq_default _ _ hout] at htaken
    cases htaken
  rcases lt_or_ge (cell.col + cell.colSpan - 1)
    (state.occupied.getD (cell.row + cell.rowSpan - 1) []).length with hcol | hout
  case inr =>
    rw [taken, getD_eq_default _ _ hout] at htaken
    cases htaken
  have hwidest : (state.occupied.getD (cell.row + cell.rowSpan - 1) []).length ≤
      (state.occupied.map length).foldl max 0 := by
    apply le_foldl_max
    rw [getD_eq_getElem _ _ hrow]
    exact mem_map_of_mem (getElem_mem hrow)
  omega

/-! ### The boxes of the cells -/

/-- For each cell that is placed, which of the tokens that open a cell opened it, behind so many of
them and inside the given one. -/
def openersFrom : ℕ → Option ℕ → List Token → List ℕ
  | _, _, [] => []
  | opened, current, token :: rest =>
    if token = kWholeCell then opened :: openersFrom (opened + 1) current rest
    else if isCellOpen token then openersFrom (opened + 1) (some opened) rest
    else if token = kCellClose then current.toList ++ openersFrom opened none rest
    else openersFrom opened current rest

def openers (tokens : List Token) : List ℕ :=
  openersFrom 0 none tokens

/-- No cell is opened inside of a cell. -/
def opensApart : Bool → List Token → Bool
  | _, [] => true
  | inCell, token :: rest =>
    if isCellOpen token then !inCell && opensApart (token != kWholeCell) rest
    else opensApart (inCell && token != kCellClose) rest

theorem openersFrom_append (opened : ℕ) (current : Option ℕ) (front back : List Token) :
  ∃ more, openersFrom opened current (front ++ back) = openersFrom opened current front ++ more
  := by
  induction front generalizing opened current with
  | nil => exact ⟨_, rfl⟩
  | cons token front ih =>
    rw [cons_append, openersFrom, openersFrom]
    split
    case isTrue =>
      obtain ⟨more, hmore⟩ := ih (opened + 1) current
      exact ⟨more, congrArg (opened :: ·) hmore⟩
    split
    case isTrue => exact ih (opened + 1) (some opened)
    split
    case isTrue =>
      obtain ⟨more, hmore⟩ := ih opened none
      exact ⟨more, by rw [hmore, append_assoc]⟩
    case isFalse => exact ih opened current

/-- The cells that are opened apart are placed as they were opened. -/
theorem openersFrom_of_opensApart {tokens : List Token} {opened : ℕ} {current : Option ℕ}
    (h : opensApart current.isSome tokens) (hcurrent : ∀ opener ∈ current, opened = opener + 1) :
  openersFrom opened current tokens =
    List.range' (current.getD opened) (openersFrom opened current tokens).length
  := by
  induction tokens generalizing opened current with
  | nil => rfl
  | cons token tokens ih =>
    rw [opensApart] at h
    rw [openersFrom]
    split
    case isTrue hwhole =>
      rw [if_pos (by rw [hwhole]; rfl), Bool.and_eq_true, Bool.not_eq_true',
        Option.isSome_eq_false_iff, Option.isNone_iff_eq_none] at h
      obtain ⟨rfl, hrest⟩ := h
      have hnext := @ih (opened + 1) none (by simpa [hwhole] using hrest) (by simp)
      rw [hnext]
      simp [range'_succ]
    case isFalse hwhole =>
    split
    case isTrue hopen =>
      rw [if_pos hopen, Bool.and_eq_true, Bool.not_eq_true', Option.isSome_eq_false_iff,
        Option.isNone_iff_eq_none] at h
      obtain ⟨rfl, hrest⟩ := h
      rw [bne_iff_ne.mpr hwhole] at hrest
      exact @ih (opened + 1) (some opened) hrest (by simp)
    case isFalse hopen =>
    rw [if_neg hopen] at h
    split
    case isTrue hclose =>
      have hnext := @ih opened none (by simpa [hclose] using h) (by simp)
      cases current with
      | none => exact hnext
      | some opener =>
        obtain rfl := hcurrent opener rfl
        rw [hnext]
        simp [range'_succ]
    case isFalse hclose =>
      rw [bne_iff_ne.mpr hclose, Bool.and_true] at h
      exact ih h hcurrent

/-- No more cells are placed than were opened. -/
theorem length_openersFrom_le (opened : ℕ) (current : Option ℕ) (tokens : List Token) :
  (openersFrom opened current tokens).length ≤
    current.toList.length + tokens.countP isCellOpen
  := by
  induction tokens generalizing opened current with
  | nil => exact Nat.zero_le _
  | cons token tokens ih =>
    rw [openersFrom, countP_cons]
    split
    case isTrue hwhole =>
      have hnext := ih (opened + 1) current
      have hopen : isCellOpen token := by
        rw [hwhole]
        rfl
      rw [if_pos hopen, length_cons]
      omega
    split
    case isTrue hopen =>
      have hnext := ih (opened + 1) (some opened)
      simp only [Option.toList_some, length_singleton] at hnext
      omega
    split
    case isTrue =>
      have hnext := ih opened none
      rw [length_append]
      simp only [Option.toList_none, length_nil] at hnext
      omega
    case isFalse => exact ih opened current

/-- A cell is placed for each of the tokens that opened one. -/
theorem length_cells_foldl {current : Option ℕ} (hcell : state.inCell = current.isSome)
    (opened : ℕ) (tokens : List Token) :
  (tokens.foldl (Placing.read cellBoxes) state).cells.length =
    state.cells.length + (openersFrom opened current tokens).length
  := by
  induction tokens generalizing state opened current with
  | nil => rfl
  | cons token tokens ih =>
    rw [foldl_cons, openersFrom]
    generalize hafter : state.read cellBoxes token = after
    have hstep := hafter ▸ state.step_read cellBoxes token
    cases hstep with
    | whole htoken =>
      rw [if_pos htoken, length_cons, @ih (state.place cellBoxes 1 1) current hcell (opened + 1)]
      simp [Placing.place]
      omega
    | opened htoken hne =>
      rw [if_neg hne, if_pos htoken]
      exact @ih _ (some opened) rfl (opened + 1)
    | closed htoken hin =>
      obtain ⟨opener, rfl⟩ := Option.isSome_iff_exists.mp (hcell.symm.trans hin)
      rw [if_neg (by rw [htoken]; decide), if_neg (by rw [htoken]; decide), if_pos htoken,
        @ih { state.place cellBoxes state.colSpan state.rowSpan with inCell := false } none rfl
          opened]
      simp [Placing.place]
      omega
    | @other row inThead colSpan rowSpan htoken hne =>
      have hwhole : token ≠ kWholeCell := by
        rintro rfl
        cases htoken
      rw [if_neg hwhole, if_neg (by rw [htoken]; exact Bool.false_ne_true)]
      split
      case isTrue hclose =>
        have hnone := Option.isSome_eq_false_iff.mp (hcell.symm.trans (hne hclose))
        rw [Option.isNone_iff_eq_none] at hnone
        rw [hnone]
        exact @ih { state with row, inThead, colSpan, rowSpan } none (hne hclose) opened
      case isFalse => exact @ih { state with row, inThead, colSpan, rowSpan } current hcell opened

/-- The cells that are placed stay, each with the next of the boxes. -/
theorem cells_foldl (hindex : state.boxIndex = state.cells.length) (tokens : List Token) :
  ∃ more, (tokens.foldl (Placing.read cellBoxes) state).cells = state.cells ++ more ∧
    more.map StructuredCell.box =
      (List.range' state.boxIndex more.length).map (cellBoxes.getD · {})
  := by
  induction tokens generalizing state with
  | nil => exact ⟨[], (append_nil _).symm, rfl⟩
  | cons token tokens ih =>
    rw [foldl_cons]
    have hplace : ∀ (cspan rspan : ℕ) (placed : Placing),
        placed.cells = (state.place cellBoxes cspan rspan).cells →
        placed.boxIndex = state.boxIndex + 1 →
        ∃ more, (tokens.foldl (Placing.read cellBoxes) placed).cells = state.cells ++ more ∧
          more.map box =
            (range' state.boxIndex more.length).map (cellBoxes.getD · {}) := by
      intro cspan rspan placed hcells hbox
      obtain ⟨more, hmore, hboxes⟩ := @ih placed (by
        rw [hbox, hcells, hindex]
        simp [Placing.place])
      rw [hcells, Placing.place, append_assoc, singleton_append] at hmore
      refine ⟨_, hmore, ?_⟩
      rw [length_cons, range'_succ, map_cons, map_cons, hboxes, hbox]
      rfl
    generalize hafter : state.read cellBoxes token = after
    have hstep := hafter ▸ state.step_read cellBoxes token
    cases hstep with
    | whole => exact hplace 1 1 _ rfl rfl
    | opened => exact @ih { state with inCell := true, colSpan := 1, rowSpan := 1 } hindex
    | closed => exact hplace state.colSpan state.rowSpan _ rfl rfl
    | @other row inThead colSpan rowSpan =>
      exact @ih { state with row, inThead, colSpan, rowSpan } hindex

/-! ### The decoded grid -/

/-- The cells are inside the grid and apart from each other, and as long as no cell is opened
inside of a cell, each has the box of the token that opened it. -/
structure Decoded (tokens : List Token) (cellBoxes : List AxisAlignedBox)
    (table : TableStructure) : Prop where
  inside : ∀ cell ∈ table.cells,
    cell.row + cell.rowSpan ≤ table.rows ∧ cell.col + cell.colSpan ≤ table.cols
  apart : table.cells.Pairwise StandsClear
  opened : table.cells.length = (openers tokens).length
  boxes : ∀ front, front <+: tokens → opensApart false front → ∀ n < (openers front).length,
    ∃ cell opener, table.cells[n]? = some cell ∧ (openers tokens)[n]? = some opener ∧
      cellBoxes[opener]? = some cell.box

/-- A list of tokens with a box for each of those that open a cell is decoded to a grid. -/
theorem decoded_structureFromTokens {tokens : List Token} {cellBoxes : List AxisAlignedBox}
    (hboxes : cellBoxes.length = tokens.countP isCellOpen) :
  Decoded tokens cellBoxes (structureFromTokens tokens cellBoxes)
  := by
  have hplaced : (tokens.foldl (Placing.read cellBoxes) {}).Placed := placed_nil.foldl tokens
  have hopened : (structureFromTokens tokens cellBoxes).cells.length = (openers tokens).length :=
    (length_cells_foldl rfl 0 tokens).trans (Nat.zero_add _)
  constructor
  case inside => exact fun cell hcell => hplaced.inside hcell
  case apart => exact hplaced.apart
  case opened => exact hopened
  case boxes =>
    rintro front ⟨back, rfl⟩ hfront n hn
    obtain ⟨more, hmore⟩ := openersFrom_append 0 none front back
    obtain ⟨cells, hcells, hbox⟩ := @cells_foldl {} cellBoxes rfl (front ++ back)
    have hall : openers front = List.range' 0 (openers front).length :=
      @openersFrom_of_opensApart front 0 none hfront (by simp)
    have hrange : (openers front)[n]? = some n := by
      rw [hall, List.getElem?_range' hn]
      simp
    have hlater : (openers (front ++ back))[n]? = some n := by
      rw [openers, hmore, ← openers, List.getElem?_append_left hn, hrange]
    have hlength : n < (openers (front ++ back)).length :=
      (List.getElem?_eq_some_iff.mp hlater).1
    have hcell : n < cells.length := by
      rw [← hopened, structureFromTokens, hcells] at hlength
      exact hlength
    have hcount : n < cellBoxes.length := by
      have hle := length_openersFrom_le 0 none (front ++ back)
      rw [← openers] at hle
      rw [hboxes]
      exact hlength.trans_le (hle.trans_eq (Nat.zero_add _))
    refine ⟨cells[n], n, ?_, hlater, ?_⟩
    · rw [structureFromTokens, hcells]
      exact List.getElem?_eq_getElem hcell
    · have heq := congrArg (·[n]?) hbox
      simp only [List.getElem?_map, List.getElem?_eq_getElem hcell, Option.map_some,
        List.getElem?_range' hcell] at heq
      simpa [hcount] using heq.symm

/-- The decode loop of `recognize`: the most likely token of each step, up to the end of the
sequence, and the box of each step that opens a cell. -/
def decodeFrom (vocab : List Token) (boxAt : ℕ → AxisAlignedBox) :
    ℕ → List ℕ → List Token × List AxisAlignedBox
  | _, [] => ([], [])
  | step, best :: rest =>
    if 0 < step ∧ best = vocab.length - 1 then ([], [])
    else if best = 0 ∨ best = vocab.length - 1 then decodeFrom vocab boxAt (step + 1) rest
    else
      let token := vocab.getD best []
      let (tokens, cellBoxes) := decodeFrom vocab boxAt (step + 1) rest
      (token :: tokens, if isCellOpen token then boxAt step :: cellBoxes else cellBoxes)

theorem length_decodeFrom (vocab : List Token) (boxAt : ℕ → AxisAlignedBox) (step : ℕ)
    (best : List ℕ) :
  (decodeFrom vocab boxAt step best).2.length =
    (decodeFrom vocab boxAt step best).1.countP isCellOpen
  := by
  induction best generalizing step with
  | nil => rfl
  | cons best rest ih =>
    rw [decodeFrom]
    split
    case isTrue => rfl
    split
    case isTrue => exact ih (step + 1)
    case isFalse =>
      dsimp only
      rw [countP_cons]
      split
      case isTrue => exact congrArg (· + 1) (ih (step + 1))
      case isFalse => exact ih (step + 1)

/-- Every list of tokens with a box for each of those that open a cell is decoded to a grid, and
the decode loop makes such lists. -/
theorem structureFromTokens_decoded :
  (∀ tokens cellBoxes, cellBoxes.length = tokens.countP isCellOpen →
    Decoded tokens cellBoxes (structureFromTokens tokens cellBoxes)) ∧
  ∀ vocab boxAt best, (decodeFrom vocab boxAt 0 best).2.length =
    (decodeFrom vocab boxAt 0 best).1.countP isCellOpen
  := by
  constructor
  · exact fun tokens cellBoxes hboxes => decoded_structureFromTokens hboxes
  · exact fun vocab boxAt best => length_decodeFrom vocab boxAt 0 best

/-- A row with a cell that reaches into the next row, and a wide cell and a narrow one there. -/
def gapTokens : List Token :=
  [kRow, kWholeCell, kCellStart, kRowspan ++ ['"', '2', '"'], ['>'], kCellClose,
    kRow, kCellStart, kColspan ++ ['"', '2', '"'], ['>'], kCellClose, kWholeCell]

theorem structureFromTokens_decoded_gap :
  Decoded gapTokens [{}, {}, {}, {}] (structureFromTokens gapTokens [{}, {}, {}, {}])
  := structureFromTokens_decoded.1 gapTokens [{}, {}, {}, {}] (by decide)

/-- The narrow cell goes into the gap before the wide one, which comes first. -/
theorem structureFromTokens_gap :
  ¬∀ tokens cellBoxes, cellBoxes.length = tokens.countP isCellOpen →
    (structureFromTokens tokens cellBoxes).cells.Pairwise fun cell later =>
      cell.row = later.row → cell.col < later.col
  := by
  intro h
  have hpairs := h gapTokens [{}, {}, {}, {}] (by decide)
  revert hpairs
  decide

end GRParse.Assembly
