import GRParse.Render.GridBounds

/-!
# Tables in LaTeX

`tabular` writes a grid as a `tabular` environment, a line for each row.  The cells of a row
are put together by the same `join` as the blocks of a document, which passes empty parts by;
a row is read as TeX reads it, from one unescaped ampersand to the next, up to the two
backslashes that end it.
-/

namespace GRParse.Grids

open List

/-! ### The functions -/

/-- Characters of ASCII, as bytes. -/
def ascii (text : List Char) : List UInt8 :=
  text.map fun c => c.toNat.toUInt8

def kBlank : UInt8 := 0x20

def kNewline : UInt8 := 0x0a

def kAmpersand : UInt8 := 0x26

def kBackslash : UInt8 := 0x5c

/-- What the switch of `escape_latex` appends. -/
def escapedLatex (byte : UInt8) : List UInt8 :=
  if byte = kBackslash then
    ascii ['\\', 't', 'e', 'x', 't', 'b', 'a', 'c', 'k', 's', 'l', 'a', 's', 'h', '{', '}']
  else if byte = 0x7b then ascii ['\\', '{']
  else if byte = 0x7d then ascii ['\\', '}']
  else if byte = 0x23 then ascii ['\\', '#']
  else if byte = 0x24 then ascii ['\\', '$']
  else if byte = 0x25 then ascii ['\\', '%']
  else if byte = kAmpersand then ascii ['\\', '&']
  else if byte = 0x5f then ascii ['\\', '_']
  else if byte = 0x7e then
    ascii ['\\', 't', 'e', 'x', 't', 'a', 's', 'c', 'i', 'i', 't', 'i', 'l', 'd', 'e', '{', '}']
  else if byte = 0x5e then
    ascii ['\\', 't', 'e', 'x', 't', 'a', 's', 'c', 'i', 'i', 'c', 'i', 'r', 'c', 'u', 'm', '{',
      '}']
  else [byte]

/-- `escape_latex`. -/
def escapeLatex (text : List UInt8) : List UInt8 :=
  text.flatMap escapedLatex

/-- `join`: the parts that are not empty, with a separator between them. -/
def join (parts : List (List UInt8)) (sep : List UInt8) : List UInt8 :=
  parts.foldl (fun out part =>
    if part.isEmpty then out
    else (if out.isEmpty then out else out ++ sep) ++ part) []

/-- `cell_text` of a plain cell. -/
def cellText (cell : TableCell) : List UInt8 :=
  (escapeLatex cell.text).map fun c => if c = kNewline then kBlank else c

/-- The text at a position: empty when no cell reaches it. -/
def positionText : Option TableCell → List UInt8
  | some cell => cellText cell
  | none => []

def kCellSeparator : List UInt8 := ascii [' ', '&', ' ']

def kRowEnd : List UInt8 :=
  ascii [' ', '\\', '\\', ' ', '\\', 'h', 'l', 'i', 'n', 'e']

def kHline : List UInt8 := ascii ['\\', 'h', 'l', 'i', 'n', 'e']

def kEndTabular : List UInt8 :=
  ascii ['\\', 'e', 'n', 'd', '{', 't', 'a', 'b', 'u', 'l', 'a', 'r', '}']

/-- The line that opens the environment, with a column for each time the specification says
so. -/
def beginTabular (ncols : ℕ) : List UInt8 :=
  ascii ['\\', 'b', 'e', 'g', 'i', 'n', '{', 't', 'a', 'b', 'u', 'l', 'a', 'r', '}', '{', '|'] ++
    (List.replicate ncols (ascii ['l', '|'])).flatten ++ ascii ['}']

/-- The line of a row. -/
def rowLine (row : List (Option TableCell)) : List UInt8 :=
  join (row.map positionText) kCellSeparator ++ kRowEnd

/-- The width of the widest row. -/
def widest (grid : Grid) : ℕ :=
  grid.foldl (fun ncols row => max ncols row.length) 0

/-- `tabular`, on the grid of the table. -/
def tabular (grid : Grid) : List UInt8 :=
  if widest grid = 0 then []
  else
    join ([beginTabular (widest grid), kHline] ++ grid.map rowLine ++ [kEndTabular]) [kNewline]

/-! ### Reading a row -/

/-- A row taken apart at its unescaped ampersands, up to its end mark. -/
def splitRow : List UInt8 → List (List UInt8)
  | [] => [[]]
  | [byte] => if byte = kAmpersand then [[], []] else [[byte]]
  | byte :: second :: rest =>
    if byte = kBackslash then
      if second = kBackslash then [[]] else (splitRow rest).modifyHead ([byte, second] ++ ·)
    else if byte = kAmpersand then [] :: splitRow (second :: rest)
    else (splitRow (second :: rest)).modifyHead (byte :: ·)

/-- A piece without the blank that belongs to the mark behind it. -/
def dropBehind (piece : List UInt8) : List UInt8 :=
  if piece.getLast? = some kBlank then piece.dropLast else piece

/-- A piece without the blank that belongs to the ampersand before it. -/
def dropBefore : List UInt8 → List UInt8
  | [] => []
  | byte :: piece => if byte = kBlank then piece else byte :: piece

/-- The cells of a row: its pieces, without the blanks of the marks. -/
def readCells (line : List UInt8) : List (List UInt8) :=
  match splitRow line with
  | [] => []
  | first :: pieces => dropBehind first :: pieces.map fun piece => dropBehind (dropBefore piece)

/-- A grid is written with its columns: between the lines of the environment, which declares
the columns of the grid, there is a line for each row, and it is read as that many cells, the
texts of the positions of the row. -/
def KeepsColumns (grid : Grid) : Prop :=
  widest grid ≠ 0 → ∃ lines, (tabular grid).splitOn kNewline =
      [beginTabular (widest grid), kHline] ++ lines ++ [kEndTabular] ∧
    lines.map readCells = grid.map (·.map positionText) ∧
    ∀ line ∈ lines, (readCells line).length = widest grid

/-! ### Texts of cells -/

/-- A text that a row is not taken apart in: each backslash starts a control sequence, and an
ampersand stands behind a backslash only. -/
inductive CellText : List UInt8 → Prop
  | nil : CellText []
  | plain {byte : UInt8} {text : List UInt8} : byte ≠ kBackslash → byte ≠ kAmpersand →
    CellText text → CellText (byte :: text)
  | control {byte : UInt8} {text : List UInt8} : byte ≠ kBackslash → CellText text →
    CellText (kBackslash :: byte :: text)

theorem CellText.append {first second : List UInt8} (hfirst : CellText first)
    (hsecond : CellText second) :
  CellText (first ++ second)
  := by
  induction hfirst with
  | nil => exact hsecond
  | plain hback hamp _ ih => exact .plain hback hamp ih
  | control hback _ ih => exact .control hback ih

theorem cellText_of_all {text : List UInt8}
    (h : text.all fun byte => byte != kBackslash && byte != kAmpersand) :
  CellText text
  := by
  induction text with
  | nil => exact .nil
  | cons byte text ih =>
    simp only [all_cons, Bool.and_eq_true, bne_iff_ne] at h
    exact .plain h.1.1 h.1.2 (ih (by simpa using h.2))

theorem cellText_escapedLatex (byte : UInt8) :
  CellText (escapedLatex byte)
  := by
  unfold escapedLatex
  split_ifs with hback _ _ _ _ _ hamp
  case neg => exact .plain hback hamp .nil
  all_goals exact .control (by decide) (cellText_of_all (by decide))

theorem cellText_escapeLatex (text : List UInt8) :
  CellText (escapeLatex text)
  := by
  induction text with
  | nil => exact .nil
  | cons byte text ih => exact (cellText_escapedLatex byte).append ih

/-- Newlines that become blanks take no row apart. -/
theorem CellText.map {text : List UInt8} (h : CellText text) :
  CellText (text.map fun c => if c = kNewline then kBlank else c)
  := by
  have hkept : ∀ byte : UInt8, byte ≠ kBackslash →
      (if byte = kNewline then kBlank else byte) ≠ kBackslash := by
    intro byte hbyte
    split
    · decide
    · exact hbyte
  induction h with
  | nil => exact .nil
  | @plain byte text hback hamp _ ih =>
    apply CellText.plain (hkept _ hback) _ ih
    split
    · decide
    · exact hamp
  | control hback _ ih => exact .control (hkept _ hback) ih

theorem cellText_positionText (position : Option TableCell) :
  CellText (positionText position)
  := by
  cases position with
  | none => exact .nil
  | some cell => exact (cellText_escapeLatex _).map

theorem escapedLatex_ne_nil (byte : UInt8) :
  escapedLatex byte ≠ []
  := by
  unfold escapedLatex
  split_ifs <;> simp [ascii]

/-- A position has no text when no cell reaches it, or one without a text. -/
theorem positionText_eq_nil (position : Option TableCell) :
  positionText position = [] ↔ ∀ cell, position = some cell → cell.text = []
  := by
  cases position with
  | none => simp [positionText]
  | some cell =>
    cases htext : cell.text with
    | nil => simp [positionText, cellText, escapeLatex, htext]
    | cons byte text => simp [positionText, cellText, escapeLatex, htext, escapedLatex_ne_nil]

/-- No text of a position goes over a line. -/
theorem newline_notMem_positionText (position : Option TableCell) :
  kNewline ∉ positionText position
  := by
  cases position with
  | none => simp [positionText]
  | some cell =>
    intro hmem
    obtain ⟨c, -, hc⟩ := mem_map.mp hmem
    split at hc
    · exact absurd hc (by decide)
    · next hne => exact hne hc

/-! ### Joined parts -/

/-- `join` puts together the parts that are not empty. -/
theorem join_eq (parts : List (List UInt8)) (sep : List UInt8) :
  join parts sep = sep.intercalate (parts.filter fun part => !part.isEmpty)
  := by
  have hfold : ∀ (parts : List (List UInt8)) (out : List UInt8), out ≠ [] →
      parts.foldl (fun out part => if part.isEmpty then out
        else (if out.isEmpty then out else out ++ sep) ++ part) out =
      sep.intercalate (out :: parts.filter fun part => !part.isEmpty) := by
    intro parts
    induction parts with
    | nil =>
      intro out _
      simp
    | cons part parts ih =>
      intro out hout
      rw [foldl_cons]
      cases part with
      | nil => simpa using ih out hout
      | cons byte part =>
        rw [if_neg (by simp), if_neg (by simpa using hout), ih _ (by simp),
          filter_cons_of_pos (by simp), intercalate_cons_cons]
        cases hrest : parts.filter fun part => !part.isEmpty with
        | nil => simp
        | cons second rest => simp [intercalate_cons_cons]
  induction parts with
  | nil => rfl
  | cons part parts ih =>
    cases part with
    | nil => simpa [join] using ih
    | cons byte part =>
      rw [filter_cons_of_pos (by simp), ← hfold _ _ (by simp)]
      rfl

/-- A text of a cell goes into the first piece as a whole. -/
theorem splitRow_append {text : List UInt8} (h : CellText text) (rest : List UInt8) :
  splitRow (text ++ rest) = (splitRow rest).modifyHead (text ++ ·)
  := by
  have hid : ∀ pieces : List (List UInt8), pieces.modifyHead ([] ++ ·) = pieces := by
    intro pieces
    cases pieces <;> rfl
  induction h with
  | nil => exact (hid _).symm
  | @plain byte text hback hamp _ ih =>
    have hcons : splitRow (byte :: (text ++ rest)) =
        (splitRow (text ++ rest)).modifyHead (byte :: ·) := by
      cases text ++ rest with
      | nil => simp [splitRow, hamp]
      | cons second more => rw [splitRow, if_neg hback, if_neg hamp]
    rw [cons_append, hcons, ih, modifyHead_modifyHead]
    rfl
  | @control byte text hback _ ih =>
    rw [cons_append, cons_append, splitRow, if_pos rfl, if_neg hback, ih,
      modifyHead_modifyHead]
    rfl

theorem splitRow_rowEnd :
  splitRow kRowEnd = [[kBlank]]
  := by
  decide

theorem splitRow_separator (rest : List UInt8) :
  splitRow (kCellSeparator ++ rest) = [kBlank] :: (splitRow rest).modifyHead (kBlank :: ·)
  := by
  have hblank : CellText [kBlank] := .plain (by decide) (by decide) .nil
  have hseparator : kCellSeparator ++ rest = [kBlank] ++ (kAmpersand :: ([kBlank] ++ rest)) := rfl
  have hamp : splitRow (kAmpersand :: ([kBlank] ++ rest)) = [] :: splitRow ([kBlank] ++ rest) := by
    rw [singleton_append, splitRow, if_neg (by decide), if_pos rfl]
  rw [hseparator, splitRow_append hblank, hamp, splitRow_append hblank]
  rfl

/-- A row of texts is taken apart into them, each with the blanks of its marks. -/
theorem splitRow_intercalate (text : List UInt8) (texts : List (List UInt8))
    (h : ∀ text' ∈ text :: texts, CellText text') :
  splitRow (kCellSeparator.intercalate (text :: texts) ++ kRowEnd) =
    (text ++ [kBlank]) :: texts.map fun text => kBlank :: text ++ [kBlank]
  := by
  induction texts generalizing text with
  | nil =>
    rw [intercalate_singleton, splitRow_append (h text mem_cons_self),
      splitRow_rowEnd]
    rfl
  | cons second texts ih =>
    rw [intercalate_cons_cons, append_assoc, append_assoc,
      splitRow_append (h text mem_cons_self), splitRow_separator,
      ih second fun text' htext' => h text' (mem_cons_of_mem _ htext')]
    rfl

/-- A row of texts is read as them. -/
theorem readCells_intercalate {texts : List (List UInt8)} (hne : texts ≠ [])
    (h : ∀ text ∈ texts, CellText text) :
  readCells (kCellSeparator.intercalate texts ++ kRowEnd) = texts
  := by
  have hbehind : ∀ text : List UInt8, dropBehind (text ++ [kBlank]) = text := by
    intro text
    simp [dropBehind]
  cases texts with
  | nil => exact absurd rfl hne
  | cons text texts =>
    rw [readCells, splitRow_intercalate text texts h]
    simp only [hbehind, map_map, cons.injEq, true_and]
    apply map_id''
    intro text
    simp [dropBefore, hbehind]

/-- The line of a row is read as the texts that are not empty, or as one empty cell. -/
theorem readCells_rowLine (row : List (Option TableCell)) :
  readCells (rowLine row) =
    if (row.map positionText).filter (fun text => !text.isEmpty) = [] then [[]]
    else (row.map positionText).filter fun text => !text.isEmpty
  := by
  rw [rowLine, join_eq]
  split
  · next hnone =>
    rw [hnone]
    decide
  · next hsome =>
    apply readCells_intercalate hsome
    intro text htext
    obtain ⟨position, -, rfl⟩ := mem_map.mp (mem_filter.mp htext).1
    apply cellText_positionText

/-! ### Lines -/

theorem notMem_intercalate {byte : UInt8} {sep : List UInt8} (hsep : byte ∉ sep)
    {parts : List (List UInt8)} (h : ∀ part ∈ parts, byte ∉ part) :
  byte ∉ sep.intercalate parts
  := by
  induction parts with
  | nil => simp
  | cons part parts ih =>
    have hpart := h part mem_cons_self
    have hparts := ih fun part' hpart' => h part' (mem_cons_of_mem _ hpart')
    cases parts with
    | nil => simpa using hpart
    | cons second parts =>
      rw [intercalate_cons_cons]
      simp only [mem_append, not_or]
      exact ⟨⟨hpart, hsep⟩, hparts⟩

theorem newline_notMem_rowLine (row : List (Option TableCell)) :
  kNewline ∉ rowLine row
  := by
  rw [rowLine, join_eq, mem_append, not_or]
  refine ⟨notMem_intercalate (by decide) ?_, by decide⟩
  intro text htext
  obtain ⟨position, -, rfl⟩ := mem_map.mp (mem_filter.mp htext).1
  apply newline_notMem_positionText

theorem newline_notMem_beginTabular (ncols : ℕ) :
  kNewline ∉ beginTabular ncols
  := by
  rw [beginTabular, mem_append, mem_append, not_or, not_or]
  refine ⟨⟨by decide, ?_⟩, by decide⟩
  rw [mem_flatten]
  rintro ⟨column, hcolumn, hmem⟩
  rw [eq_of_mem_replicate hcolumn] at hmem
  exact absurd hmem (by decide)

/-- The lines of the environment are those it was put together from. -/
theorem splitOn_tabular {grid : Grid} (h : widest grid ≠ 0) :
  (tabular grid).splitOn kNewline =
    [beginTabular (widest grid), kHline] ++ grid.map rowLine ++ [kEndTabular]
  := by
  have hlines : ∀ line ∈ [beginTabular (widest grid), kHline] ++ grid.map rowLine ++ [kEndTabular],
      kNewline ∉ line ∧ line ≠ [] := by
    intro line hline
    simp only [mem_append, mem_cons, mem_map, not_mem_nil, or_false] at hline
    rcases hline with ((rfl | rfl) | ⟨row, -, rfl⟩) | rfl
    · exact ⟨newline_notMem_beginTabular _, by simp [beginTabular, ascii]⟩
    · exact ⟨by decide, by decide⟩
    · exact ⟨newline_notMem_rowLine row, by simp [rowLine, kRowEnd, ascii]⟩
    · exact ⟨by decide, by decide⟩
  rw [tabular, if_neg h, join_eq, filter_eq_self.mpr]
  · exact splitOn_intercalate _ (fun line hline => (hlines line hline).1) (by simp)
  · intro line hline
    simpa using (hlines line hline).2

/-! ### Columns -/

/-- A row is read as its texts when it has one position, or a text at each. -/
theorem readCells_rowLine_iff {row : List (Option TableCell)} (hrow : row ≠ []) :
  readCells (rowLine row) = row.map positionText ↔
    row.length = 1 ∨ ∀ position ∈ row, positionText position ≠ []
  := by
  have hall : (row.map positionText).filter (fun text => !text.isEmpty) = row.map positionText ↔
      ∀ position ∈ row, positionText position ≠ [] := by
    simp [filter_eq_self]
  rw [readCells_rowLine]
  split
  · next hnone =>
    constructor
    · intro h
      have := congrArg length h
      simp only [length_singleton, length_map] at this
      exact Or.inl this.symm
    · rintro (hone | hfull)
      · obtain ⟨position, rfl⟩ := length_eq_one_iff.mp hone
        simp only [map_cons, map_nil, cons.injEq, and_true]
        by_contra hne
        simp [Ne.symm hne] at hnone
      · rw [hall.mpr hfull, map_eq_nil_iff] at hnone
        exact absurd hnone hrow
  · next hsome =>
    rw [hall]
    constructor
    · exact Or.inr
    · rintro (hone | hfull)
      · obtain ⟨position, rfl⟩ := length_eq_one_iff.mp hone
        intro position' hposition'
        rw [mem_singleton.mp hposition']
        intro hnil
        simp [hnil] at hsome
      · exact hfull

/-- A grid whose rows are all of one width is that wide. -/
theorem widest_eq {grid : Grid} {cols : ℕ} (hgrid : grid ≠ [])
    (h : ∀ row ∈ grid, row.length = cols) :
  widest grid = cols
  := by
  have hfold : ∀ rows : Grid, (∀ row ∈ rows, row.length = cols) →
      rows.foldl (fun ncols row => max ncols row.length) cols = cols := by
    intro rows
    induction rows with
    | nil => exact fun _ => rfl
    | cons row rows ih =>
      intro hrows
      rw [foldl_cons, hrows row mem_cons_self, max_self]
      exact ih fun row' hrow' => hrows row' (mem_cons_of_mem _ hrow')
  cases grid with
  | nil => exact absurd rfl hgrid
  | cons row rows =>
    rw [widest, foldl_cons, h row mem_cons_self, Nat.zero_max]
    exact hfold rows fun row' hrow' => h row' (mem_cons_of_mem _ hrow')

/-- The rows of a derived grid are of one width. -/
theorem exists_width {data : TableData} {budget : GridBudget} {sheet : Sheet}
    (h : derivedTableGrid data budget = some sheet) :
  ∃ cols, ∀ row ∈ sheet.grid, row.length = cols
  := by
  obtain ⟨hrenders, hfails⟩ := (Job.mk data true).render_spec budget
  have hrender : (Job.mk data true).render budget = some sheet := h
  by_cases hfits : (Job.mk data true).Fits
  · obtain ⟨sheet', hsheet', hshows, -⟩ := hrenders hfits
    obtain rfl := Option.some.inj (hrender.symm.trans hsheet')
    have hgiven : ¬(Job.mk data true).Given := fun hgiven => absurd hgiven.1 (by simp)
    rw [hshows.grid, if_neg hgiven]
    exact ⟨_, (length_rect _ _ _).2⟩
  · rw [hfails hfits] at hrender
    cases hrender

/-- The columns of a table are kept exactly when it has one column, or a cell with a text at
every position that is kept. -/
theorem tabular_keepsColumns_iff (data : TableData) (budget : GridBudget) (sheet : Sheet)
    (h : derivedTableGrid data budget = some sheet) :
  KeepsColumns sheet.grid ↔
    ∀ row ∈ sheet.grid, row.length = 1 ∨
      ∀ position ∈ row, ∃ cell, position = some cell ∧ cell.text ≠ []
  := by
  obtain ⟨cols, hcols⟩ := exists_width h
  have hposition : ∀ position, positionText position ≠ [] ↔
      ∃ cell, position = some cell ∧ cell.text ≠ [] := by
    intro position
    rw [Ne, positionText_eq_nil]
    push Not
    rfl
  by_cases hwidest : widest sheet.grid = 0
  · constructor
    · intro _ row hrow
      rw [widest_eq (List.ne_nil_of_mem hrow) hcols] at hwidest
      have hnil := List.eq_nil_of_length_eq_zero ((hcols row hrow).trans hwidest)
      refine Or.inr fun position hposition => ?_
      rw [hnil] at hposition
      cases hposition
    · intro _ hne
      exact absurd hwidest hne
  · have hrows : ∀ row ∈ sheet.grid, row ≠ [] ∧ row.length = widest sheet.grid := by
      intro row hrow
      have heq := (hcols row hrow).trans (widest_eq (List.ne_nil_of_mem hrow) hcols).symm
      refine ⟨?_, heq⟩
      rintro rfl
      exact hwidest heq.symm
    have hread : (∀ row ∈ sheet.grid, readCells (rowLine row) = row.map positionText) ↔
        ∀ row ∈ sheet.grid, row.length = 1 ∨
          ∀ position ∈ row, ∃ cell, position = some cell ∧ cell.text ≠ [] := by
      apply forall₂_congr
      intro row hrow
      rw [readCells_rowLine_iff (hrows row hrow).1]
      simp only [hposition]
    rw [← hread]
    constructor
    · intro hkeeps row hrow
      obtain ⟨lines, hlines, hcells, -⟩ := hkeeps hwidest
      rw [splitOn_tabular hwidest, List.append_cancel_right_eq, List.append_cancel_left_eq]
        at hlines
      rw [← hlines, List.map_map] at hcells
      exact List.map_inj_left.mp hcells row hrow
    · intro hkeeps _
      refine ⟨sheet.grid.map rowLine, splitOn_tabular hwidest, ?_, ?_⟩
      · rw [List.map_map]
        exact List.map_inj_left.mpr hkeeps
      · intro line hline
        obtain ⟨row, hrow, rfl⟩ := List.mem_map.mp hline
        rw [hkeeps row hrow, List.length_map, (hrows row hrow).2]

theorem length_noGrid : (([] : List (List TableCell)).length : ℤ) ≤ intMax := by decide

theorem length_noRow : ∀ row ∈ ([] : List (List TableCell)), (row.length : ℤ) ≤ intMax := by
  decide

/-- One row of two columns, with a cell in the second one. -/
def secondOnly : TableData where
  tableCells := [{ startRow := 0, endRow := 1, startCol := 1, endCol := 2, text := [0x62] }]
  numRows := 1
  numCols := 2
  length_grid := length_noGrid
  length_row := length_noRow

theorem derivedTableGrid_secondOnly :
  ∃ sheet, derivedTableGrid secondOnly {} = some sheet ∧
    sheet.grid = [[none, secondOnly.tableCells.head?]]
  := by
  have hdimensions : keptDimensions 1 2 {} = some ((1, 2), GridBudget.spend {} 2) := rfl
  obtain ⟨sheet, start, hkept, hsheet, hgrid⟩ :
      ∃ sheet start, keptDimensions 1 2 {} = some (sheet.kept, start) ∧
        derivedTableGrid secondOnly {} = some sheet ∧
        sheet.grid = rect sheet.kept.1 sheet.kept.2 (Job.mk secondOnly true).plainGrid := by
    apply (derivedTableGrid_window_iff secondOnly {} _).mpr
    · intro cell hcell
      obtain rfl := mem_singleton.mp hcell
      refine ⟨⟨?_, ?_⟩, ?_, ?_⟩ <;> decide
    · intro kept start hkept
      obtain ⟨rfl, rfl⟩ : (1, 2) = kept ∧ GridBudget.spend {} 2 = start := by
        simpa using hdimensions.symm.trans hkept
      have hdemands : demands ((Job.mk secondOnly true).reached (1, 2)) secondOnly.tableCells =
          [(0, 1)] := by decide
      exact hdemands ▸ GridBudget.paysFor_singleton _ 1
  have hdims : (1, 2) = sheet.kept := by
    rw [hdimensions] at hkept
    exact (Prod.mk.inj (Option.some.inj hkept)).1
  refine ⟨sheet, hsheet, ?_⟩
  rw [hgrid, ← hdims]
  decide

theorem tabular_keepsColumns_secondOnly :
  ∃ sheet, derivedTableGrid secondOnly {} = some sheet ∧
    (KeepsColumns sheet.grid ↔
      ∀ row ∈ sheet.grid, row.length = 1 ∨
        ∀ position ∈ row, ∃ cell, position = some cell ∧ cell.text ≠ [])
  := by
  obtain ⟨sheet, hsheet, -⟩ := derivedTableGrid_secondOnly
  exact ⟨sheet, hsheet, tabular_keepsColumns_iff secondOnly {} sheet hsheet⟩

/-- The cell of the second column is written as the first cell of the row. -/
theorem tabular_movesCell :
  ∃ sheet, derivedTableGrid secondOnly {} = some sheet ∧ ¬KeepsColumns sheet.grid ∧
    sheet.grid = [[none, secondOnly.tableCells.head?]] ∧
    sheet.grid.map (fun row => readCells (rowLine row)) = [[[0x62]]]
  := by
  obtain ⟨sheet, hsheet, hgrid⟩ := derivedTableGrid_secondOnly
  have hread : sheet.grid.map (fun row => readCells (rowLine row)) = [[[0x62]]] := by
    rw [hgrid]
    decide
  refine ⟨sheet, hsheet, ?_, hgrid, hread⟩
  intro hkeeps
  have hwidest : widest sheet.grid ≠ 0 := by
    rw [hgrid]
    decide
  obtain ⟨lines, hlines, hcells, -⟩ := hkeeps hwidest
  rw [splitOn_tabular hwidest, List.append_cancel_right_eq, List.append_cancel_left_eq] at hlines
  rw [← hlines, List.map_map] at hcells
  have heq := hread.symm.trans hcells
  rw [hgrid] at heq
  exact absurd heq (by decide)

end GRParse.Grids
