import GRParse.Assembly.Page
import GRParse.Layout.XyCut

/-!
# The reading order of a page

Lines are read in units: the lines of one region are one, and a line outside every region is
one by itself.  A page whose source order is trusted reads its units in the order of their first
lines; any other page cuts them at the whitespace between them.  Either way the order is one of
the lines of the page that are read, each once.
-/

namespace GRParse.Assembly

open Layout Sorting List

/-! ### Units -/

/-- Lines that are read together.  The box around lines has its edges in order. -/
structure ReadingUnit where
  box : AxisAlignedBox
  lineIndices : List LineRef
  ordered : lineIndices ≠ [] → box.Ordered

namespace ReadingUnit

/-- A region before any of its lines are found. -/
def ofRegion (region : LayoutRegion) : ReadingUnit :=
  ⟨region.box, [], fun h => absurd rfl h⟩

/-- A line outside every region. -/
def single (line : LineRef) : ReadingUnit :=
  ⟨boundingBox line.1, [line], fun _ => ordered_boundingBox line.1⟩

/-- A unit with one more line. -/
def add (unit : ReadingUnit) (line : LineRef) : ReadingUnit where
  box :=
    if unit.lineIndices = [] then boundingBox line.1 else unit.box.hull (boundingBox line.1)
  lineIndices := unit.lineIndices ++ [line]
  ordered _ := by
    split
    case isTrue => exact ordered_boundingBox line.1
    case isFalse => exact (ordered_boundingBox line.1).hull unit.box

end ReadingUnit

/-- The units of the regions come first, each at the index of its region. -/
def placeLine (page : OcrPage) (units : List ReadingUnit) (line : LineRef) :
    List ReadingUnit :=
  match regionForLine page line.1 with
  | some region => units.modify region.2 (·.add line)
  | none => units ++ [.single line]

/-- The units of a page. -/
def readingUnits (page : OcrPage) : List ReadingUnit :=
  page.readableLines.foldl (placeLine page) (page.regions.map .ofRegion)

theorem foldl_placeLine {page : OcrPage} {units : List ReadingUnit} (lines : List LineRef)
    (h : page.regions.length ≤ units.length) :
  ((lines.foldl (placeLine page) units).flatMap ReadingUnit.lineIndices).Perm
    (units.flatMap ReadingUnit.lineIndices ++ lines)
  := by
  induction lines generalizing units with
  | nil => simp
  | cons line lines ih =>
    have hline : page.regions.length ≤ (placeLine page units line).length ∧
        ((placeLine page units line).flatMap ReadingUnit.lineIndices).Perm
          (units.flatMap ReadingUnit.lineIndices ++ [line]) := by
      unfold placeLine
      split
      case h_1 region hregion =>
        have hlt := snd_lt_of_mem_regionRefs (mem_regionRefs hregion)
        constructor
        · simpa using h
        · exact Lists.flatMap_modify_perm (fun _ => .refl _) (hlt.trans_le h)
      case h_2 =>
        constructor
        · exact h.trans (by simp)
        · simp [ReadingUnit.single]
    apply (ih hline.1).trans
    simpa using hline.2.append_right lines

/-- The units hold the lines that are read, each once. -/
theorem readingUnits_perm (page : OcrPage) :
  ((readingUnits page).flatMap ReadingUnit.lineIndices).Perm page.readableLines
  := by
  have hnone : (page.regions.map ReadingUnit.ofRegion).flatMap ReadingUnit.lineIndices = [] := by
    simp [flatMap_map, ReadingUnit.ofRegion]
  have hplaced := @foldl_placeLine page (page.regions.map .ofRegion) page.readableLines (by simp)
  rwa [hnone, nil_append] at hplaced

/-! ### The order -/

/-- A unit with lines. -/
abbrev LineUnit := {unit : ReadingUnit // unit.lineIndices ≠ []}

namespace LineUnit

/-- The box of a unit for the cut. -/
def orderBox (unit : LineUnit) : OrderBox where
  left := unit.1.box.left
  top := unit.1.box.top
  right := unit.1.box.right
  bottom := unit.1.box.bottom
  left_le := by exact_mod_cast (unit.1.ordered unit.2).1
  top_le := by exact_mod_cast (unit.1.ordered unit.2).2

/-- The index of the first line of a unit. -/
def front (unit : LineUnit) : ℕ :=
  (unit.1.lineIndices.head unit.2).2

end LineUnit

/-- The units that have lines. -/
def withLines (units : List ReadingUnit) : List LineUnit :=
  units.filterMap fun unit => if h : unit.lineIndices ≠ [] then some ⟨unit, h⟩ else none

theorem flatMap_withLines (units : List ReadingUnit) :
  (withLines units).flatMap (·.1.lineIndices) = units.flatMap ReadingUnit.lineIndices
  := by
  induction units with
  | nil => rfl
  | cons unit units ih =>
    by_cases h : unit.lineIndices = []
    · rw [withLines, filterMap_cons_none (by simp [h]), flatMap_cons, h]
      exact ih
    · rw [withLines, filterMap_cons_some (dif_pos h), flatMap_cons,
        flatMap_cons]
      exact congrArg (unit.lineIndices ++ ·) ih

/-- `reading_order`. -/
def readingOrder (page : OcrPage) (trustSourceOrder : Bool) : List LineRef :=
  let units := withLines (readingUnits page)
  if trustSourceOrder then
    (sortOn LineUnit.front units).flatMap fun unit => sortOn Prod.snd unit.1.lineIndices
  else
    ((xyCutOrder {} (units.map fun unit => some unit.orderBox)).filterMap (units[·]?)).flatMap
      fun unit => sortOn (fun line => (boundingBox line.1).corner) unit.1.lineIndices

/-- Reading units in any order reads their lines. -/
theorem flatMap_sortOn_perm {κ : Type} [LinearOrder κ] {units : List LineUnit} {page : OcrPage}
    (key : LineRef → κ) (h : units.Perm (withLines (readingUnits page))) :
  (units.flatMap fun unit => sortOn key unit.1.lineIndices).Perm page.readableLines
  := by
  have hsorted : (units.flatMap fun unit => sortOn key unit.1.lineIndices).Perm
      (units.flatMap fun unit => unit.1.lineIndices) :=
    List.Perm.flatMap_left _ fun unit _ => sortOn_perm key _
  apply hsorted.trans
  apply (h.flatMap_right _).trans
  rw [flatMap_withLines]
  exact readingUnits_perm page

/-- The order is one of the lines that are read, each once. -/
theorem readingOrder_perm (page : OcrPage) (trustSourceOrder : Bool) :
  (readingOrder page trustSourceOrder).Perm page.readableLines
  := by
  cases trustSourceOrder
  case true => exact flatMap_sortOn_perm _ (sortOn_perm _ _)
  case false =>
    apply flatMap_sortOn_perm
    rw [filterMap_xyCutOrder]
    exact orderMembers_perm _ _ _

end GRParse.Assembly
