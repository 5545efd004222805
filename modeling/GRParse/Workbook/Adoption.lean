import GRParse.Workbook.Cells
import Mathlib

/-!
# Adopted cells

The cells of a reading cover rectangles of its sheet, no two of which meet.  So do the cells that
`adopt_table` leaves, but for one case: a libreoffice cell that something is anchored in is kept
where no cell starts, although a merged area that calamine read may cover its place.
`adoptTable_adopts_iff` says that this is the only one.
-/

namespace GRParse.Workbook

open KeyedList TableCell

variable {ρ : Type}

/-! ### Rectangles -/

/-- The places that a cell covers. -/
def TableCell.area (cell : TableCell ρ) : Set Position :=
  Set.Ico cell.startRow cell.endRow ×ˢ Set.Ico cell.startCol cell.endCol

/-- The places of a merged area. -/
def MergedArea.places (area : MergedArea) : Set Position :=
  Set.Ico area.row (area.row + area.rows) ×ˢ Set.Ico area.column (area.column + area.columns)

/-- The ends of a cell are where its spans end.  A span that is not set is one. -/
structure TableCell.Consistent (cell : TableCell ρ) : Prop where
  endRow : cell.endRow = cell.startRow + max 1 cell.rowSpan
  endCol : cell.endCol = cell.startCol + max 1 cell.colSpan

/-- Cells that cover rectangles which do not meet. -/
structure Reading (cells : List (TableCell ρ)) : Prop where
  consistent : ∀ cell ∈ cells, cell.Consistent
  disjoint : cells.Pairwise fun cell other => Disjoint cell.area other.area

/-- Whether a place is in a merged area of libreoffice, behind a top-left cell that is there. -/
def IsHidden (calamine libre : TableData ρ) (position : Position) : Prop :=
  ∃ area ∈ mergesOf libre.tableCells,
    area.topLeft ∈ (adoptedCells calamine libre).map TableCell.position ∧
    position ∈ area.places ∧ position ≠ area.topLeft

/-- What is left of a table whose cells are adopted: cells that do not meet, among them those of
calamine, but for their spans, that no merged area hides, in a table that is large enough. -/
structure Adopts (calamine libre result : TableData ρ) : Prop where
  reading : Reading result.tableCells
  kept : ∀ cell ∈ calamine.tableCells, ¬ IsHidden calamine libre cell.position →
    ∃ kept ∈ result.tableCells,
      kept.setSpans 1 1 = (adoptedCell cell (libreAt libre cell)).setSpans 1 1
  endRow_le : ∀ cell ∈ result.tableCells, cell.endRow ≤ result.numRows
  endCol_le : ∀ cell ∈ result.tableCells, cell.endCol ≤ result.numCols

/-- Where calamine read merged cells, a libreoffice cell that something is anchored in meets no
cell of calamine, unless one starts at its place. -/
def AnchorsFree (calamine libre : TableData ρ) : Prop :=
  calamine.tableCells.any TableCell.isMerged →
    ∀ anchor ∈ libre.tableCells, anchor.ref.isSome →
      anchor.position ∉ calamine.tableCells.map TableCell.position →
      ∀ cell ∈ calamine.tableCells, Disjoint cell.area anchor.area

variable {area : MergedArea} {position : Position}

theorem MergedArea.mem_inside :
  position ∈ area.inside ↔ position ∈ area.places ∧ position ≠ area.topLeft
  := by
  obtain ⟨row, column⟩ := position
  rw [inside, List.mem_filter, decide_eq_true_eq]
  apply and_congr_left'
  simp only [List.mem_flatMap, List.mem_map, List.mem_range, places, Set.mem_prod, Set.mem_Ico,
    Prod.mk.injEq]
  constructor
  · rintro ⟨i, hi, j, hj, rfl, rfl⟩
    omega
  · rintro ⟨⟨hrow, hrow'⟩, hcolumn, hcolumn'⟩
    refine ⟨(row - area.row).toNat, by omega, (column - area.column).toNat, by omega, by omega,
      by omega⟩

variable {cell : TableCell ρ}

theorem TableCell.Consistent.mem_area (h : cell.Consistent) :
  cell.position ∈ cell.area
  := by
  have hrow := h.endRow
  have hcol := h.endCol
  simp only [area, position, Set.mem_prod, Set.mem_Ico]
  omega

variable {cells : List (TableCell ρ)}

/-- Cells that do not meet start at different places. -/
theorem Reading.nodup_positions (h : Reading cells) :
  (cells.map TableCell.position).Nodup
  := by
  apply List.pairwise_map.mpr
  apply h.disjoint.imp_of_mem
  intro cell other hcell hother hdisjoint heq
  apply Set.disjoint_left.mp hdisjoint (h.consistent cell hcell).mem_area
  rw [heq]
  exact (h.consistent other hother).mem_area

/-! ### Cells before areas are spread -/

@[simp]
theorem adoptedCell_position (calamine : TableCell ρ) (libre : Option (TableCell ρ)) :
  (adoptedCell calamine libre).position = calamine.position
  := by
  cases libre with
  | none => rfl
  | some libre =>
    simp only [adoptedCell]
    split <;> rfl

variable {calamine : TableCell ρ}

theorem adoptedCell_ends (h : calamine.Consistent) (libre : Option (TableCell ρ)) :
  (adoptedCell calamine libre).endRow = calamine.endRow ∧
    (adoptedCell calamine libre).endCol = calamine.endCol
  := by
  cases libre with
  | none => exact ⟨rfl, rfl⟩
  | some libre =>
    rw [h.endRow, h.endCol]
    simp only [adoptedCell]
    split <;> exact ⟨rfl, rfl⟩

/-- An adopted cell covers what calamine's cell covers. -/
theorem adoptedCell_area (h : calamine.Consistent) (libre : Option (TableCell ρ)) :
  (adoptedCell calamine libre).area = calamine.area
  := by
  obtain ⟨hrow, hcol⟩ := adoptedCell_ends h libre
  obtain ⟨hstart, hstart'⟩ := Prod.mk.inj (adoptedCell_position calamine libre)
  rw [area, hrow, hcol, hstart, hstart', area]

theorem adoptedCell_consistent (h : calamine.Consistent) (libre : Option (TableCell ρ)) :
  (adoptedCell calamine libre).Consistent
  := by
  cases libre with
  | none => exact h
  | some libre =>
    simp only [adoptedCell]
    split
    all_goals
      constructor
      all_goals simp [setSpans, clearMarks]

theorem readCells_positions (calamine libre : TableData ρ) :
  (readCells calamine libre).map TableCell.position
    = calamine.tableCells.map TableCell.position
  := by
  rw [readCells, List.map_map]
  apply List.map_congr_left
  intro cell _
  apply adoptedCell_position

theorem reading_readCells {calamine : TableData ρ} (h : Reading calamine.tableCells)
    (libre : TableData ρ) :
  Reading (readCells calamine libre)
  := by
  constructor
  case consistent =>
    intro adopted hadopted
    obtain ⟨cell, hcell, rfl⟩ := List.mem_map.mp hadopted
    exact adoptedCell_consistent (h.consistent cell hcell) _
  case disjoint =>
    apply List.pairwise_map.mpr
    apply h.disjoint.imp_of_mem
    intro cell other hcell hother hdisjoint
    rwa [adoptedCell_area (h.consistent cell hcell), adoptedCell_area (h.consistent other hother)]

theorem mem_anchors {libre : TableData ρ} :
  cell ∈ anchors cells libre ↔ ∃ anchor ∈ libre.tableCells, anchor.ref.isSome ∧
    anchor.position ∉ cells.map TableCell.position ∧ anchor.clearMarks = cell
  := by
  simp [anchors, and_assoc]

theorem reading_anchors {libre : TableData ρ} (h : Reading libre.tableCells)
    (cells : List (TableCell ρ)) :
  Reading (anchors cells libre)
  := by
  constructor
  case consistent =>
    intro cell hcell
    obtain ⟨anchor, hanchor, -, -, rfl⟩ := mem_anchors.mp hcell
    exact ⟨(h.consistent anchor hanchor).endRow, (h.consistent anchor hanchor).endCol⟩
  case disjoint =>
    apply List.pairwise_map.mpr
    exact h.disjoint.filter _

variable {calamine libre : TableData ρ}

/-- No two adopted cells start at one place. -/
theorem nodup_adoptedCells (hcalamine : Reading calamine.tableCells)
    (hlibre : Reading libre.tableCells) :
  ((adoptedCells calamine libre).map TableCell.position).Nodup
  := by
  rw [adoptedCells, List.map_append]
  apply List.nodup_append.mpr
  refine ⟨(reading_readCells hcalamine libre).nodup_positions,
    (reading_anchors hlibre _).nodup_positions, ?_⟩
  intro position hposition other hother
  obtain ⟨cell, hcell, rfl⟩ := List.mem_map.mp hother
  obtain ⟨anchor, -, -, hfree, rfl⟩ := mem_anchors.mp hcell
  rintro rfl
  exact hfree hposition

theorem consistent_adoptedCells (hcalamine : Reading calamine.tableCells)
    (hlibre : Reading libre.tableCells) (hcell : cell ∈ adoptedCells calamine libre) :
  cell.Consistent
  := by
  rcases List.mem_append.mp hcell with hcell | hcell
  · exact (reading_readCells hcalamine libre).consistent cell hcell
  · exact (reading_anchors hlibre _).consistent cell hcell

/-- The adopted cells do not meet if none that is anchored meets one of calamine. -/
theorem disjoint_adoptedCells_iff (hcalamine : Reading calamine.tableCells)
    (hlibre : Reading libre.tableCells) :
  (adoptedCells calamine libre).Pairwise (fun cell other => Disjoint cell.area other.area)
    ↔ ∀ anchor ∈ libre.tableCells, anchor.ref.isSome →
      anchor.position ∉ calamine.tableCells.map TableCell.position →
      ∀ cell ∈ calamine.tableCells, Disjoint cell.area anchor.area
  := by
  rw [adoptedCells, List.pairwise_append]
  constructor
  · rintro ⟨-, -, hcross⟩ anchor hanchor href hfree cell hcell
    have h := hcross _ (List.mem_map_of_mem hcell) anchor.clearMarks
      (mem_anchors.mpr ⟨anchor, hanchor, href, by rwa [readCells_positions], rfl⟩)
    rwa [adoptedCell_area (hcalamine.consistent cell hcell)] at h
  · intro h
    refine ⟨(reading_readCells hcalamine libre).disjoint, (reading_anchors hlibre _).disjoint, ?_⟩
    intro adopted hadopted other hother
    obtain ⟨cell, hcell, rfl⟩ := List.mem_map.mp hadopted
    obtain ⟨anchor, hanchor, href, hfree, rfl⟩ := mem_anchors.mp hother
    rw [adoptedCell_area (hcalamine.consistent cell hcell)]
    rw [readCells_positions] at hfree
    exact h anchor hanchor href hfree cell hcell

/-! ### Merged areas of libreoffice -/

theorem mem_mergesOf :
  area ∈ mergesOf cells ↔ ∃ cell ∈ cells, cell.isMerged ∧
    ⟨cell.startRow, cell.startCol, max 1 cell.rowSpan, max 1 cell.colSpan⟩ = area
  := by
  simp [mergesOf, and_assoc]

/-- A merged area is what a cell covers. -/
theorem exists_of_mem_mergesOf (h : Reading cells) (harea : area ∈ mergesOf cells) :
  ∃ cell ∈ cells, cell.position = area.topLeft ∧ cell.area = area.places ∧ 1 ≤ area.rows ∧
    1 ≤ area.columns
  := by
  obtain ⟨cell, hcell, -, rfl⟩ := mem_mergesOf.mp harea
  refine ⟨cell, hcell, rfl, ?_, le_max_left _ _, le_max_left _ _⟩
  rw [area, (h.consistent cell hcell).endRow, (h.consistent cell hcell).endCol]
  rfl

theorem isPlaced_of_isMerged (h : cell.isMerged) (row column : ℤ) :
  (⟨row, column, max 1 cell.rowSpan, max 1 cell.colSpan⟩ : MergedArea).isPlaced
  := by
  simp only [isMerged, Bool.or_eq_true, decide_eq_true_eq] at h
  simp only [MergedArea.isPlaced, Bool.not_eq_true', Bool.or_eq_false_iff, decide_eq_false_iff_not,
    Bool.and_eq_false_iff]
  omega

/-- A cell that is not merged covers its place. -/
theorem eq_position_of_mem_area (h : cell.Consistent) (hmerged : cell.isMerged = false)
    (hposition : position ∈ cell.area) :
  position = cell.position
  := by
  have hrow := h.endRow
  have hcol := h.endCol
  simp only [TableCell.isMerged, Bool.or_eq_false_iff, decide_eq_false_iff_not] at hmerged
  simp only [TableCell.area, Set.mem_prod, Set.mem_Ico] at hposition
  apply Prod.ext
  · simp only [TableCell.position]
    omega
  · simp only [TableCell.position]
    omega

theorem setSpans_area (h : cell.position = area.topLeft) :
  (cell.setSpans area.rows area.columns).area = area.places
  := by
  obtain ⟨hrow, hcol⟩ := Prod.mk.inj h
  simp only [TableCell.area, TableCell.setSpans, hrow, hcol]
  rfl

/-- A place that a merged area covers behind the top-left cell that got it is hidden. -/
theorem mem_hiddenPlaces (hcell : cell ∈ adoptedCells calamine libre)
    (harea : area ∈ mergesOf libre.tableCells) (hplaced : area.isPlaced)
    (htop : cell.position = area.topLeft) (hposition : position ∈ area.places)
    (hne : position ≠ cell.position) :
  position ∈ hiddenPlaces (adoptedCells calamine libre) (mergesOf libre.tableCells)
  := by
  have hpresent : area.topLeft ∈ (adoptedCells calamine libre).map TableCell.position :=
    htop ▸ List.mem_map_of_mem hcell
  apply List.mem_flatMap.mpr
  refine ⟨area, List.mem_filter.mpr ⟨harea, ?_⟩, MergedArea.mem_inside.mpr ⟨hposition, htop ▸ hne⟩⟩
  simp [hplaced, hpresent]

section

variable {calamine libre : TableData ρ} (hcalamine : Reading calamine.tableCells)
  (hlibre : Reading libre.tableCells)

include hcalamine hlibre

/-- A cell that no merged area begins at covers its place alone. -/
theorem eq_position_of_no_area (hunmerged : calamine.tableCells.any TableCell.isMerged = false)
    (hcell : cell ∈ adoptedCells calamine libre)
    (hnone : ∀ area ∈ mergesOf libre.tableCells, area.isPlaced → cell.position ≠ area.topLeft)
    (hposition : position ∈ cell.area) :
  position = cell.position
  := by
  rcases List.mem_append.mp hcell with hread | hanchor
  · obtain ⟨stored, hstored, rfl⟩ := List.mem_map.mp hread
    have hconsistent := hcalamine.consistent stored hstored
    rw [adoptedCell_area hconsistent] at hposition
    rw [adoptedCell_position]
    apply eq_position_of_mem_area hconsistent _ hposition
    simpa using List.any_eq_false.mp hunmerged stored hstored
  · obtain ⟨anchor, hlisted, -, -, rfl⟩ := mem_anchors.mp hanchor
    apply eq_position_of_mem_area (hlibre.consistent anchor hlisted) _ hposition
    by_contra hmerged
    rw [Bool.not_eq_false] at hmerged
    exact hnone _ (mem_mergesOf.mpr ⟨anchor, hlisted, hmerged, rfl⟩)
      (isPlaced_of_isMerged hmerged _ _) rfl

/-- Two cells that are not hidden do not meet once they have their spans. -/
theorem disjoint_spanned (hunmerged : calamine.tableCells.any TableCell.isMerged = false)
    {cell other : TableCell ρ} (hcell : cell ∈ adoptedCells calamine libre)
    (hother : other ∈ adoptedCells calamine libre)
    (hshown : cell.position ∉
      hiddenPlaces (adoptedCells calamine libre) (mergesOf libre.tableCells))
    (hshown' : other.position ∉
      hiddenPlaces (adoptedCells calamine libre) (mergesOf libre.tableCells))
    (hne : cell.position ≠ other.position) :
  Disjoint (spanned (mergesOf libre.tableCells) cell).area
    (spanned (mergesOf libre.tableCells) other).area
  := by
  apply Set.disjoint_left.mpr
  intro position hposition hposition'
  rcases spanned_cases (mergesOf libre.tableCells) cell with
    ⟨area, harea, hplaced, htop, hspanned⟩ | ⟨hnone, hspanned⟩ <;>
  rcases spanned_cases (mergesOf libre.tableCells) other with
    ⟨area', harea', hplaced', htop', hspanned'⟩ | ⟨hnone', hspanned'⟩
  · rw [hspanned, setSpans_area htop] at hposition
    rw [hspanned', setSpans_area htop'] at hposition'
    obtain ⟨merged, hmerged, htopMerged, hareaMerged, -⟩ := exists_of_mem_mergesOf hlibre harea
    obtain ⟨merged', hmerged', htopMerged', hareaMerged', -⟩ := exists_of_mem_mergesOf hlibre harea'
    have hdistinct : merged ≠ merged' := by
      rintro rfl
      exact hne (htop.trans (htopMerged.symm.trans (htopMerged'.trans htop'.symm)))
    have hsymm : Std.Symm fun cell other : TableCell ρ => Disjoint cell.area other.area :=
      ⟨fun _ _ h => h.symm⟩
    have hdisjoint := hlibre.disjoint.forall hmerged hmerged' hdistinct
    rw [hareaMerged, hareaMerged'] at hdisjoint
    exact Set.disjoint_left.mp hdisjoint hposition hposition'
  · rw [hspanned, setSpans_area htop] at hposition
    rw [hspanned'] at hposition'
    obtain rfl := eq_position_of_no_area hcalamine hlibre hunmerged hother hnone' hposition'
    exact hshown' (mem_hiddenPlaces hcell harea hplaced htop hposition hne.symm)
  · rw [hspanned] at hposition
    rw [hspanned', setSpans_area htop'] at hposition'
    obtain rfl := eq_position_of_no_area hcalamine hlibre hunmerged hcell hnone hposition
    exact hshown (mem_hiddenPlaces hother harea' hplaced' htop' hposition' hne)
  · rw [hspanned] at hposition
    rw [hspanned'] at hposition'
    apply hne
    rw [← eq_position_of_no_area hcalamine hlibre hunmerged hcell hnone hposition]
    exact eq_position_of_no_area hcalamine hlibre hunmerged hother hnone' hposition'

/-- Where calamine read no merged cells, those that are left do not meet. -/
theorem reading_spread (hunmerged : calamine.tableCells.any TableCell.isMerged = false) :
  Reading (applyMergedAreas (adoptedCells calamine libre) (mergesOf libre.tableCells))
  := by
  have hnodup := nodup_adoptedCells hcalamine hlibre
  rw [applyMergedAreas_eq hnodup]
  constructor
  case consistent =>
    intro kept hkept
    obtain ⟨cell, hcell, rfl⟩ := List.mem_map.mp hkept
    rcases spanned_cases (mergesOf libre.tableCells) cell with
      ⟨area, harea, -, -, hspanned⟩ | ⟨-, hspanned⟩
    · obtain ⟨-, -, -, -, hrows, hcolumns⟩ := exists_of_mem_mergesOf hlibre harea
      rw [hspanned]
      constructor
      all_goals simp [setSpans, hrows, hcolumns]
    · rw [hspanned]
      exact consistent_adoptedCells hcalamine hlibre (List.mem_filter.mp hcell).1
  case disjoint =>
    apply List.pairwise_map.mpr
    apply List.Pairwise.imp_of_mem _ ((List.pairwise_map.mp hnodup).filter _)
    intro cell other hcell hother hne
    obtain ⟨hcell, hshown⟩ := List.mem_filter.mp hcell
    obtain ⟨hother, hshown'⟩ := List.mem_filter.mp hother
    exact disjoint_spanned hcalamine hlibre hunmerged hcell hother (by simpa using hshown)
      (by simpa using hshown') hne

/-- The cells that are left do not meet if, and only if, no anchored cell meets one of calamine's
where calamine read merged cells. -/
theorem reading_placedCells_iff :
  Reading (placedCells calamine libre) ↔ AnchorsFree calamine libre
  := by
  unfold placedCells AnchorsFree
  split
  case isTrue hmerged =>
    rw [← disjoint_adoptedCells_iff hcalamine hlibre]
    constructor
    · intro h _
      exact h.disjoint
    · intro h
      exact ⟨fun cell hcell => consistent_adoptedCells hcalamine hlibre hcell, h hmerged⟩
  case isFalse hmerged =>
    constructor
    · intro _ hmerged'
      exact absurd hmerged' hmerged
    · intro _
      exact reading_spread hcalamine hlibre (by simpa using hmerged)

/-- A cell of calamine that no merged area hides is left, but for its spans. -/
theorem exists_kept (hcell : cell ∈ calamine.tableCells)
    (hshown : ¬ IsHidden calamine libre cell.position) :
  ∃ kept ∈ placedCells calamine libre,
    kept.setSpans 1 1 = (adoptedCell cell (libreAt libre cell)).setSpans 1 1
  := by
  have hadopted : adoptedCell cell (libreAt libre cell) ∈ adoptedCells calamine libre :=
    List.mem_append_left _ (List.mem_map_of_mem hcell)
  unfold placedCells
  split
  case isTrue => exact ⟨_, hadopted, rfl⟩
  case isFalse =>
    rw [applyMergedAreas_eq (nodup_adoptedCells hcalamine hlibre)]
    refine ⟨spanned (mergesOf libre.tableCells) (adoptedCell cell (libreAt libre cell)), ?_, ?_⟩
    · apply List.mem_map_of_mem
      apply List.mem_filter.mpr ⟨hadopted, _⟩
      rw [decide_eq_true_eq, adoptedCell_position]
      intro hhidden
      obtain ⟨area, harea, hinside⟩ := List.mem_flatMap.mp hhidden
      obtain ⟨hmerge, hpresent⟩ := List.mem_filter.mp harea
      obtain ⟨-, hpresent⟩ := (Bool.and_eq_true _ _ ▸ hpresent : _ ∧ _)
      obtain ⟨hplaces, hne⟩ := MergedArea.mem_inside.mp hinside
      exact hshown ⟨area, hmerge, of_decide_eq_true hpresent, hplaces, hne⟩
    · rcases spanned_cases (mergesOf libre.tableCells) (adoptedCell cell (libreAt libre cell)) with
        ⟨area, -, -, -, hspanned⟩ | ⟨-, hspanned⟩
      · rw [hspanned]
        rfl
      · rw [hspanned]

end

theorem le_foldl_max {ends : List ℤ} {last start : ℤ} (h : last ∈ ends) :
  last ≤ ends.foldl max start
  := (List.max?_eq_some_iff.mp (@List.max?_cons' _ start _ ends)).2 last (List.mem_cons_of_mem _ h)

/-- Adoption leaves cells that do not meet, keeps those of calamine that no merged area hides and
makes the table large enough, if, and only if, no anchored cell meets one of calamine's where
calamine read merged cells. -/
theorem adoptTable_adopts_iff {calamine libre : TableData ρ}
    (hcalamine : Reading calamine.tableCells) (hlibre : Reading libre.tableCells) :
  Adopts calamine libre (adoptTable calamine libre) ↔ AnchorsFree calamine libre
  := by
  rw [← reading_placedCells_iff hcalamine hlibre]
  constructor
  · intro h
    exact h.reading
  · intro h
    constructor
    case reading => exact h
    case kept =>
      intro cell hcell hshown
      exact exists_kept hcalamine hlibre hcell hshown
    case endRow_le =>
      intro cell hcell
      exact le_foldl_max (List.mem_map_of_mem hcell)
    case endCol_le =>
      intro cell hcell
      exact le_foldl_max (List.mem_map_of_mem hcell)

theorem reading_singleton (h : cell.Consistent) :
  Reading [cell]
  := ⟨List.forall_mem_singleton.mpr h, List.pairwise_singleton _ _⟩

/-- A title over two columns, as libreoffice reads it and as calamine reads it from a format
without merged cells. -/
def titleLibre : TableData Unit where
  tableCells := [{ rowSpan := 1, colSpan := 2, endRow := 1, endCol := 2 }]

def titleCalamine : TableData Unit where
  tableCells := [
    { rowSpan := 1, colSpan := 1, endRow := 1, endCol := 1 },
    { rowSpan := 1, colSpan := 1, endRow := 1, startCol := 1, endCol := 2 }]

theorem reading_title :
  Reading titleLibre.tableCells ∧ Reading titleCalamine.tableCells
  := by
  constructor
  · exact reading_singleton ⟨rfl, rfl⟩
  · constructor
    case consistent =>
      exact List.forall_mem_cons.mpr ⟨⟨rfl, rfl⟩, List.forall_mem_singleton.mpr ⟨rfl, rfl⟩⟩
    case disjoint =>
      apply List.pairwise_pair.mpr
      apply Set.disjoint_left.mpr
      rintro ⟨row, column⟩ hcell hother
      simp only [area, Set.mem_prod, Set.mem_Ico] at hcell hother
      omega

theorem adoptTable_adopts_title :
  Adopts titleCalamine titleLibre (adoptTable titleCalamine titleLibre)
  := (adoptTable_adopts_iff reading_title.2 reading_title.1).mpr fun h => by
    cases h

/-- A merged area that calamine read, over the place of a libreoffice cell that a picture is
anchored in. -/
def mergedCalamine : TableData Unit where
  tableCells := [{ rowSpan := 2, colSpan := 2, endRow := 2, endCol := 2 }]

def anchoredLibre : TableData Unit where
  tableCells := [
    { rowSpan := 1, colSpan := 1, startRow := 1, endRow := 2, startCol := 1, endCol := 2,
      ref := some [] }]

/-- The anchored cell is kept inside the merged area. -/
theorem not_reading_anchored :
  Reading mergedCalamine.tableCells ∧ Reading anchoredLibre.tableCells ∧
    ¬ (adoptTable mergedCalamine anchoredLibre).tableCells.Pairwise
      fun cell other => Disjoint cell.area other.area
  := by
  refine ⟨reading_singleton ⟨rfl, rfl⟩, reading_singleton ⟨rfl, rfl⟩, ?_⟩
  intro h
  have hcells : (adoptTable mergedCalamine anchoredLibre).tableCells
      = mergedCalamine.tableCells ++ anchoredLibre.tableCells := rfl
  rw [hcells] at h
  have hdisjoint := List.pairwise_pair.mp h
  have hplace : ((1, 1) : Position) ∈ @TableCell.area Unit { endRow := 2, endCol := 2 } := by
    simp [TableCell.area]
  apply Set.disjoint_left.mp hdisjoint hplace
  simp [TableCell.area]

end GRParse.Workbook
