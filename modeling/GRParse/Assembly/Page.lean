import GRParse.Lib.Lists
import GRParse.Lib.SortOn
import Mathlib.Algebra.Order.Field.Rat
import Mathlib.Data.Prod.Lex

/-!
# Recognized pages

A page as recognition leaves it: lines of text with the polygons they were read from, and the
regions that layout detection found.  A line belongs to the most confident region that holds
the center of its box.

The source refers to the lines and regions of a page by index and by address.  Here they are
referred to by themselves together with their indices, so that two equal lines, or two equal
regions, stay apart.
-/

namespace GRParse.Assembly

/-! ### Boxes -/

structure Point where
  x : ℤ
  y : ℤ
  deriving DecidableEq

structure AxisAlignedBox where
  left : ℤ := 0
  top : ℤ := 0
  right : ℤ := 0
  bottom : ℤ := 0
  deriving DecidableEq

namespace AxisAlignedBox

def width (box : AxisAlignedBox) : ℤ :=
  box.right - box.left

def height (box : AxisAlignedBox) : ℤ :=
  box.bottom - box.top

/-- The middle of a box, rounded toward zero. -/
def center (box : AxisAlignedBox) : Point :=
  ⟨(box.left + box.right).tdiv 2, (box.top + box.bottom).tdiv 2⟩

/-- Whether a point is in a box, edges included. -/
def contains (box : AxisAlignedBox) (point : Point) : Bool :=
  box.left ≤ point.x && point.x ≤ box.right && box.top ≤ point.y && point.y ≤ box.bottom

/-- The least box around two. -/
def hull (box other : AxisAlignedBox) : AxisAlignedBox :=
  ⟨min box.left other.left, min box.top other.top, max box.right other.right,
    max box.bottom other.bottom⟩

/-- The edges of a box are in order. -/
def Ordered (box : AxisAlignedBox) : Prop :=
  box.left ≤ box.right ∧ box.top ≤ box.bottom

/-- The corner boxes are sorted by: from the top, and from the left on one level. -/
def corner (box : AxisAlignedBox) : ℤ ×ₗ ℤ :=
  toLex (box.top, box.left)

/-- The box that holds one point only. -/
def ofPoint (point : Point) : AxisAlignedBox :=
  ⟨point.x, point.y, point.x, point.y⟩

theorem ordered_ofPoint (point : Point) :
  (ofPoint point).Ordered
  := ⟨le_rfl, le_rfl⟩

theorem Ordered.hull {other : AxisAlignedBox} (h : other.Ordered) (box : AxisAlignedBox) :
  (box.hull other).Ordered
  := by
  constructor
  · exact (min_le_right _ _).trans (h.1.trans (le_max_right _ _))
  · exact (min_le_right _ _).trans (h.2.trans (le_max_right _ _))

theorem Ordered.foldl_hull {box : AxisAlignedBox} (h : box.Ordered) (points : List Point) :
  (points.foldl (fun box point => box.hull (ofPoint point)) box).Ordered
  := by
  induction points generalizing box with
  | nil => exact h
  | cons point points ih => exact ih ((ordered_ofPoint point).hull box)

end AxisAlignedBox

/-! ### Lines -/

/-- A line of text, as bytes, and the polygon it was read from. -/
structure OcrLine where
  text : List UInt8 := []
  polygon : List Point := []
  deriving DecidableEq

/-- `bounding_box`. -/
def boundingBox (line : OcrLine) : AxisAlignedBox :=
  match line.polygon with
  | [] => {}
  | first :: rest => rest.foldl (fun box point => box.hull (.ofPoint point)) (.ofPoint first)

theorem ordered_boundingBox (line : OcrLine) :
  (boundingBox line).Ordered
  := by
  unfold boundingBox
  split
  case h_1 => exact ⟨le_rfl, le_rfl⟩
  case h_2 first rest _ => exact (AxisAlignedBox.ordered_ofPoint first).foldl_hull rest

/-- Only a line with text and a polygon is read. -/
def OcrLine.readable (line : OcrLine) : Bool :=
  !line.text.isEmpty && !line.polygon.isEmpty

/-- A line of a page and its index. -/
abbrev LineRef := OcrLine × ℕ

/-! ### Regions -/

/-- A cell that the structure model recognized, with its place in the grid. -/
structure StructuredCell where
  row : ℕ := 0
  col : ℕ := 0
  rowSpan : ℕ := 1
  colSpan : ℕ := 1
  header : Bool := false
  left : ℤ := 0
  top : ℤ := 0
  right : ℤ := 0
  bottom : ℤ := 0
  deriving DecidableEq

def StructuredCell.box (cell : StructuredCell) : AxisAlignedBox :=
  ⟨cell.left, cell.top, cell.right, cell.bottom⟩

structure FigureClass where
  label : String
  confidence : ℚ
  deriving DecidableEq

structure BarcodeResult where
  format : String
  text : String
  deriving DecidableEq

structure LayoutRegion where
  label : String := ""
  confidence : ℚ := 0
  left : ℤ := 0
  top : ℤ := 0
  right : ℤ := 0
  bottom : ℤ := 0
  imagePng : List UInt8 := []
  structuredCells : List StructuredCell := []
  figureClasses : List FigureClass := []
  barcodes : List BarcodeResult := []
  deriving DecidableEq

def LayoutRegion.box (region : LayoutRegion) : AxisAlignedBox :=
  ⟨region.left, region.top, region.right, region.bottom⟩

/-- A region of a page and its index. -/
abbrev RegionRef := LayoutRegion × ℕ

/-! ### Pages -/

structure OcrPage where
  lines : List OcrLine := []
  regions : List LayoutRegion := []
  sourceOrderTrusted : Bool := false

/-- The lines of a page that are read. -/
def OcrPage.readableLines (page : OcrPage) : List LineRef :=
  page.lines.zipIdx.filter fun line => line.1.readable

def OcrPage.regionRefs (page : OcrPage) : List RegionRef :=
  page.regions.zipIdx

/-- The better of the best region so far and the next one: the first of the most confident ones
that hold the center. -/
def betterRegion (center : Point) (best : Option RegionRef) (region : RegionRef) :
    Option RegionRef :=
  if region.1.box.contains center ∧ best.all (·.1.confidence < region.1.confidence) then
    some region
  else best

/-- `region_for_line`. -/
def regionForLine (page : OcrPage) (line : OcrLine) : Option RegionRef :=
  if line.polygon = [] then none
  else page.regionRefs.foldl (betterRegion (boundingBox line).center) none

theorem foldl_betterRegion_mem {center : Point} {regions : List RegionRef}
    {best : Option RegionRef} {region : RegionRef}
    (h : regions.foldl (betterRegion center) best = some region) :
  best = some region ∨ region ∈ regions
  := by
  induction regions generalizing best with
  | nil => exact .inl h
  | cons next regions ih =>
    rcases ih h with hbest | hmem
    · unfold betterRegion at hbest
      split at hbest
      case isTrue => exact .inr (by simp [← Option.some.inj hbest])
      case isFalse => exact .inl hbest
    · exact .inr (List.mem_cons_of_mem _ hmem)

/-- The region of a line is one of the page. -/
theorem mem_regionRefs {page : OcrPage} {line : OcrLine} {region : RegionRef}
    (h : regionForLine page line = some region) :
  region ∈ page.regionRefs
  := by
  unfold regionForLine at h
  split at h
  case isTrue => simp at h
  case isFalse =>
    rcases foldl_betterRegion_mem h with hnone | hmem
    · simp at hnone
    · exact hmem

theorem nodup_readableLines (page : OcrPage) :
  page.readableLines.Nodup
  := (Lists.nodup_zipIdx _).filter _

theorem snd_lt_of_mem_regionRefs {page : OcrPage} {region : RegionRef}
    (h : region ∈ page.regionRefs) :
  region.2 < page.regions.length
  := by
  simpa using (List.mem_zipIdx h).2.1

end GRParse.Assembly
