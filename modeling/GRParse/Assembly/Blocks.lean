import GRParse.Assembly.ReadingOrder
import GRParse.Assembly.TableData

/-!
# Text blocks

The lines of a page in reading order, grouped into blocks that are printed as one item each.
Consecutive lines of one region go together where the region says so; list lines go together
where they continue one another.  A line that a table carries is suppressed: it is in a block
like any other line, but in one that is not printed.

How list markers are told apart is left open, since it decides only which lines go together.
-/

namespace GRParse.Assembly

open List

/-! ### Blocks -/

/-- Lines of one region in reading order.  There is always one. -/
structure TextBlock where
  region : Option RegionRef
  suppressed : Bool
  lines : List LineRef
  nonempty : lines ≠ []

namespace TextBlock

def front (block : TextBlock) : OcrLine :=
  (block.lines.head block.nonempty).1

def back (block : TextBlock) : OcrLine :=
  (block.lines.getLast block.nonempty).1

def add (block : TextBlock) (line : LineRef) : TextBlock where
  region := block.region
  suppressed := block.suppressed
  lines := block.lines ++ [line]
  nonempty := by simp

/-- `block_box`: the hull of the lines. -/
def box (block : TextBlock) : AxisAlignedBox :=
  block.lines.foldl (fun box line => box.hull (boundingBox line.1)) (boundingBox block.front)

end TextBlock

/-- `is_furniture_region`. -/
def isFurnitureRegion (region : Option RegionRef) : Bool :=
  region.any fun region => region.1.label = "page_header" || region.1.label = "page_footer"

/-- `is_list_region`. -/
def isListRegion (region : Option RegionRef) : Bool :=
  region.any fun region => region.1.label = "list" || region.1.label = "list_item"

/-- `region_aggregates`. -/
def regionAggregates (region : Option RegionRef) : Bool :=
  region.any fun region =>
    region.1.label ≠ "list" && region.1.label ≠ "list_item" && region.1.label ≠ "table"

/-- Whether a table carries the line, which the source looks up under the region of the line. -/
def suppresses (page : OcrPage) (line : LineRef) : Bool :=
  (regionForLine page line.1).any fun region =>
    region.1.label = "table" && claimsLine page region line

/-- The tables of a page. -/
def tables (page : OcrPage) : List RegionRef :=
  page.regionRefs.filter fun region => region.1.label = "table"

/-- A line is suppressed exactly when some table of the page carries it. -/
theorem suppresses_iff {page : OcrPage} {line : LineRef} :
  suppresses page line ↔ ∃ table ∈ tables page, claimsLine page table line
  := by
  rw [suppresses, Option.any_eq_true]
  constructor
  · rintro ⟨region, hregion, h⟩
    simp only [Bool.and_eq_true, decide_eq_true_eq] at h
    use region
    constructor
    · exact mem_filter.mpr ⟨mem_regionRefs hregion, by simpa using h.1⟩
    · exact h.2
  · rintro ⟨table, htable, hclaims⟩
    use table, regionForLine_of_claimsLine hclaims
    rw [hclaims, Bool.and_true]
    exact (mem_filter.mp htable).2

section

variable (isSiblingListMarker : List UInt8 → List UInt8 → Bool)

/-! ### Grouping -/

/-- `continues_visual_line`. -/
def continuesVisualLine (block : TextBlock) (line : OcrLine) : Bool :=
  let lead := block.front
  let last := boundingBox block.back
  let next := boundingBox line
  let shorter := min last.height next.height
  let overlap := min last.bottom next.bottom - max last.top next.top
  let gap := next.left - last.right
  let onlyMarker := block.lines.length = 1 ∧ isSiblingListMarker lead.text lead.text
  let reach := (if onlyMarker then 2 else 1) * max last.height next.height
  !isSiblingListMarker lead.text line.text && 0 < shorter &&
    (shorter < 2 * overlap && last.left ≤ next.left && gap ≤ reach)

/-- Whether a line of a region goes into a block. -/
def joinsBlock (block : TextBlock) (region : Option RegionRef) (suppressed : Bool)
    (line : LineRef) : Bool :=
  block.region = region && block.suppressed = suppressed &&
    (suppressed || regionAggregates region ||
      isListRegion region && continuesVisualLine isSiblingListMarker block line.1)

/-- The next line goes into the last block or opens one. -/
def addLine (page : OcrPage) (blocks : List TextBlock) (line : LineRef) : List TextBlock :=
  let region := regionForLine page line.1
  let suppressed := suppresses page line
  if blocks.getLast?.any (joinsBlock isSiblingListMarker · region suppressed line) then
    blocks.modifyLast (·.add line)
  else blocks ++ [⟨region, suppressed, [line], by simp⟩]

/-- `build_text_blocks`. -/
def buildTextBlocks (page : OcrPage) : List TextBlock :=
  ((readingOrder page page.sourceOrderTrusted).filter (·.1.readable)).foldl
    (addLine isSiblingListMarker page) []

/-- The lines of a block are suppressed together. -/
def TextBlock.Uniform (page : OcrPage) (block : TextBlock) : Prop :=
  ∀ line ∈ block.lines, block.suppressed = suppresses page line

variable {isSiblingListMarker}

/-- The next line is behind all lines so far, in a block of its kind. -/
theorem addLine_spec (page : OcrPage) (blocks : List TextBlock) (line : LineRef) :
  (addLine isSiblingListMarker page blocks line).flatMap TextBlock.lines =
      blocks.flatMap TextBlock.lines ++ [line] ∧
    ((∀ block ∈ blocks, block.Uniform page) →
      ∀ block ∈ addLine isSiblingListMarker page blocks line, block.Uniform page)
  := by
  unfold addLine
  dsimp only
  split
  case isTrue h =>
    obtain ⟨last, hlast, hjoins⟩ := (Option.any_eq_true _ _).mp h
    obtain ⟨init, rfl⟩ := getLast?_eq_some_iff.mp hlast
    rw [modifyLast_concat]
    simp only [joinsBlock, Bool.and_eq_true, decide_eq_true_eq] at hjoins
    constructor
    · simp [TextBlock.add]
    · intro huniform block hblock
      rcases mem_append.mp hblock with hinit | hadded
      · exact huniform block (mem_append_left _ hinit)
      · obtain rfl := mem_singleton.mp hadded
        intro other hother
        rcases mem_append.mp hother with hold | hnew
        · exact huniform last (by simp) other hold
        · obtain rfl := mem_singleton.mp hnew
          exact hjoins.1.2
  case isFalse =>
    constructor
    · simp
    · intro huniform block hblock
      rcases mem_append.mp hblock with hold | hnew
      · exact huniform block hold
      · obtain rfl := mem_singleton.mp hnew
        intro other hother
        rw [mem_singleton.mp hother]

theorem foldl_addLine_spec (page : OcrPage) (lines : List LineRef) (blocks : List TextBlock) :
  (lines.foldl (addLine isSiblingListMarker page) blocks).flatMap TextBlock.lines =
      blocks.flatMap TextBlock.lines ++ lines ∧
    ((∀ block ∈ blocks, block.Uniform page) →
      ∀ block ∈ lines.foldl (addLine isSiblingListMarker page) blocks, block.Uniform page)
  := by
  induction lines generalizing blocks with
  | nil => simp
  | cons line lines ih =>
    obtain ⟨hlines, huniform⟩ := addLine_spec page blocks line
    obtain ⟨hrest, hrestUniform⟩ := ih (addLine isSiblingListMarker page blocks line)
    constructor
    · rw [foldl_cons, hrest, hlines, append_assoc, singleton_append]
    · exact fun h => hrestUniform (huniform h)

/-- The blocks hold the lines of the page that are read, each once. -/
theorem buildTextBlocks_perm (page : OcrPage) :
  ((buildTextBlocks isSiblingListMarker page).flatMap TextBlock.lines).Perm page.readableLines
  := by
  rw [buildTextBlocks, (foldl_addLine_spec page _ []).1, flatMap_nil, nil_append]
  have hperm := (readingOrder_perm page page.sourceOrderTrusted).filter (·.1.readable)
  simpa only [OcrPage.readableLines, filter_filter, Bool.and_self] using hperm

/-- A block is suppressed exactly when some table carries its lines. -/
theorem uniform_of_mem_buildTextBlocks {page : OcrPage} {block : TextBlock}
    (h : block ∈ buildTextBlocks isSiblingListMarker page) :
  block.Uniform page
  := (foldl_addLine_spec page _ []).2 (by simp) block h

end

/-! ### Anchors -/

/-- `overlaps_horizontally`. -/
def overlapsHorizontally (box : AxisAlignedBox) (region : LayoutRegion) : Bool :=
  0 < min box.right region.right - max box.left region.left

/-- `level_and_apart`. -/
def levelAndApart (a b : AxisAlignedBox) : Bool :=
  0 < min a.bottom b.bottom - max a.top b.top && min a.right b.right - max a.left b.left ≤ 0

/-- `page_has_columns`. -/
def pageHasColumns (blocks : List TextBlock) (region : LayoutRegion) : Bool :=
  let boxes := (blocks.filter fun block => !isFurnitureRegion block.region).map TextBlock.box
  let own := boxes.filter (overlapsHorizontally · region)
  let other := boxes.filter fun box => !overlapsHorizontally box region
  own.any fun a => other.any fun b => levelAndApart a b

/-- `region_anchor`. -/
def regionAnchor (blocks : List TextBlock) (region : RegionRef) : ℕ :=
  match blocks.findIdx? (·.region = some region) with
  | some index => index
  | none =>
    let columns := pageHasColumns blocks region.1
    blocks.findIdx fun block =>
      !(columns && !overlapsHorizontally block.box region.1) && region.1.top ≤ block.box.top

theorem regionAnchor_le (blocks : List TextBlock) (region : RegionRef) :
  regionAnchor blocks region ≤ blocks.length
  := by
  unfold regionAnchor
  split
  case h_1 index h => exact (findIdx?_eq_some_iff_getElem.mp h).1.le
  case h_2 => exact findIdx_le_length

end GRParse.Assembly
