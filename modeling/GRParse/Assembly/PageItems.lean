import GRParse.Assembly.Blocks
import GRParse.Document.References
import GRParse.Lib.Utf8

/-!
# The items of a page

A page is printed block by block.  The tables and pictures of the page are placed at their
anchors between the blocks, every block that is not suppressed becomes a text item, unless it is
blank, and a caption is attached to the nearest float it labels.  A block with more characters
than a charspan can count is refused, and the page with it.

So no line of a page is lost and none is printed twice: every line that is read is in one block,
and where that block is suppressed, the line is in one cell of the table that suppresses it.
-/

namespace GRParse.Assembly

open Sorting List

/-! ### Items -/

/-- Where a line of an item was on the page, and which characters of the item it gave. -/
structure Provenance where
  pageNo : ℤ
  charspanStart : ℕ
  charspanEnd : ℕ
  bbox : AxisAlignedBox

/-- What a text item says and shows of its block. -/
structure TextContent where
  furniture : Bool
  orig : List UInt8
  prov : List Provenance

structure TextItem where
  selfRef : String
  parent : String
  content : TextContent

structure TableContent where
  pageNo : ℤ
  bbox : AxisAlignedBox
  data : TableData

structure PictureContent where
  pageNo : ℤ
  bbox : AxisAlignedBox
  image : Option (List UInt8)
  figureClasses : List FigureClass
  barcodes : List BarcodeResult

/-- A table or a picture, with the captions that are attached to it. -/
structure FloatItem (Content : Type) where
  selfRef : String
  content : Content
  captions : List String := []
  children : List String := []

/-- What a page is assembled into. -/
structure PageData where
  pageNumber : ℤ
  texts : List TextItem
  tables : List (FloatItem TableContent)
  pictures : List (FloatItem PictureContent)
  bodyOrder : List String

inductive AssemblyError where
  | textBlockTooLong
  deriving DecidableEq

/-- The indices of the next items. -/
structure AssemblyCursor where
  textIndex : ℕ := 0
  tableIndex : ℕ := 0
  pictureIndex : ℕ := 0

/-- The items of a page so far, with the floats and captions among them. -/
structure Emission where
  cursor : AssemblyCursor
  texts : List TextItem := []
  tables : List (FloatItem TableContent) := []
  pictures : List (FloatItem PictureContent) := []
  floats : List (RegionRef × String) := []
  captions : List (RegionRef × String) := []
  bodyOrder : List String := []

/-! ### Floats -/

def tableContent (page : OcrPage) (pageNumber : ℤ) (region : RegionRef) : TableContent :=
  ⟨pageNumber, region.1.box, fillTableData page region⟩

def pictureContent (pageNumber : ℤ) (region : RegionRef) : PictureContent where
  pageNo := pageNumber
  bbox := region.1.box
  image := if region.1.imagePng = [] then none else some region.1.imagePng
  figureClasses := region.1.figureClasses
  barcodes := region.1.barcodes

/-- `emit_float`. -/
def emitFloat (page : OcrPage) (pageNumber : ℤ) (emission : Emission) (region : RegionRef) :
    Emission :=
  if region.1.label = "table" then
    let selfRef := slotRef kTables emission.cursor.tableIndex
    { emission with
      cursor.tableIndex := emission.cursor.tableIndex + 1
      tables := emission.tables ++ [⟨selfRef, tableContent page pageNumber region, [], []⟩]
      floats := emission.floats ++ [(region, selfRef)]
      bodyOrder := emission.bodyOrder ++ [selfRef] }
  else
    let selfRef := slotRef kPictures emission.cursor.pictureIndex
    { emission with
      cursor.pictureIndex := emission.cursor.pictureIndex + 1
      pictures := emission.pictures ++ [⟨selfRef, pictureContent pageNumber region, [], []⟩]
      floats := emission.floats ++ [(region, selfRef)]
      bodyOrder := emission.bodyOrder ++ [selfRef] }

/-! ### Blocks -/

/-- The text of a block so far, its characters, and those each line gave. -/
structure MergedText where
  merged : List UInt8 := []
  codePoints : ℕ := 0
  spans : List (LineRef × ℕ × ℕ) := []

def MergedText.add (separator : UInt8) (text : MergedText) (line : LineRef) : MergedText :=
  let start := if text.merged = [] then text.codePoints else text.codePoints + 1
  let finish := start + line.1.text.countP Utf8.startsChar
  ⟨appendText separator text.merged line, finish, text.spans ++ [(line, start, finish)]⟩

/-- Lines of code stay lines. -/
def separatorOf (region : Option RegionRef) : UInt8 :=
  if region.any (·.1.label = "code") then 0x0A else space

def TextBlock.mergedText (block : TextBlock) : MergedText :=
  block.lines.foldl (.add (separatorOf block.region)) {}

/-- `std::isspace`. -/
def isSpaceByte (byte : UInt8) : Bool :=
  byte = 0x20 || 0x09 ≤ byte && byte ≤ 0x0D

/-- The text of a block, put together from the texts of its lines. -/
def TextBlock.joinedText (block : TextBlock) : List UInt8 :=
  joinTexts (separatorOf block.region) block.lines

/-- The text of a block is all whitespace. -/
def TextBlock.blank (block : TextBlock) : Bool :=
  block.joinedText.all isSpaceByte

/-- A block that is to be printed has more characters than an `int32` counts. -/
def TextBlock.TooLong (block : TextBlock) : Prop :=
  block.suppressed = false ∧ intMax < block.mergedText.codePoints

def textContent (pageNumber : ℤ) (block : TextBlock) : TextContent where
  furniture := isFurnitureRegion block.region
  orig := block.mergedText.merged
  prov := block.mergedText.spans.map fun (line, start, finish) =>
    ⟨pageNumber, start, finish, boundingBox line.1⟩

/-- `emit_block`. -/
def emitBlock (pageNumber : ℤ) (emission : Emission) (block : TextBlock) :
    Except AssemblyError Emission :=
  if intMax < block.mergedText.codePoints then .error .textBlockTooLong
  else if block.mergedText.merged.all isSpaceByte then .ok emission
  else
    let selfRef := slotRef kTexts emission.cursor.textIndex
    let furniture := isFurnitureRegion block.region
    .ok { emission with
      cursor.textIndex := emission.cursor.textIndex + 1
      texts := emission.texts ++
        [⟨selfRef, if furniture then "#/furniture" else "#/body", textContent pageNumber block⟩]
      captions := emission.captions ++ (block.region.filter (·.1.label = "caption")).toList.map
        (·, selfRef)
      bodyOrder := if furniture then emission.bodyOrder else emission.bodyOrder ++ [selfRef] }

theorem merged_foldl_add (separator : UInt8) (lines : List LineRef) (text : MergedText) :
  (lines.foldl (.add separator) text).merged = lines.foldl (appendText separator) text.merged
  := by
  induction lines generalizing text with
  | nil => rfl
  | cons line lines ih => exact ih _

theorem merged_mergedText (block : TextBlock) :
  block.mergedText.merged = block.joinedText
  := merged_foldl_add _ _ _

/-! ### The walk over the page -/

/-- A float and the position of the block it goes before. -/
structure Placed where
  region : RegionRef
  anchor : ℕ

/-- The pictures of a page. -/
def pictures (page : OcrPage) : List RegionRef :=
  page.regionRefs.filter fun region => region.1.label = "picture"

/-- The tables and the pictures of a page. -/
def floatsOf (page : OcrPage) : List RegionRef :=
  page.regionRefs.filter fun region =>
    region.1.label = "table" || region.1.label = "picture"

/-- The floats of a page in the order they are placed in. -/
def placedFloats (page : OcrPage) (blocks : List TextBlock) : List Placed :=
  sortOn (fun placed => toLex (placed.anchor, toLex (placed.region.1.top, placed.region.1.left)))
    ((floatsOf page).map fun region => ⟨region, regionAnchor blocks region⟩)

/-- A block is printed unless it is suppressed. -/
def emitUnsuppressed (pageNumber : ℤ) (emission : Emission) (block : TextBlock) :
    Except AssemblyError Emission :=
  if block.suppressed then .ok emission else emitBlock pageNumber emission block

/-- The blocks from a position on, each behind the floats that are placed there. -/
def emitPage (page : OcrPage) (pageNumber : ℤ) :
    List TextBlock → ℕ → List Placed → Emission → Except AssemblyError Emission
  | [], index, placed, emission =>
    .ok (((placed.takeWhile (·.anchor = index)).map Placed.region).foldl
      (emitFloat page pageNumber) emission)
  | block :: blocks, index, placed, emission => do
    let emission := ((placed.takeWhile (·.anchor = index)).map Placed.region).foldl
      (emitFloat page pageNumber) emission
    let emission ← emitUnsuppressed pageNumber emission block
    emitPage page pageNumber blocks (index + 1) (placed.dropWhile (·.anchor = index)) emission

/-! ### Captions -/

/-- How far a caption is from a float that it labels. -/
def floatGap (caption target : LayoutRegion) : Option ℚ :=
  let width : ℚ := caption.right - caption.left
  let height : ℚ := caption.bottom - caption.top
  let overlap : ℚ := min caption.right target.right - max caption.left target.left
  let gap : ℚ :=
    if target.bottom ≤ caption.top then caption.top - target.bottom
    else if caption.bottom ≤ target.top then target.top - caption.bottom
    else 0
  if overlap < 3 / 10 * width then none else if 3 / 2 * height < gap then none else some gap

/-- The nearer of the best float so far and the next one. -/
def betterFloat (caption : LayoutRegion) (best : Option (String × ℚ))
    (target : RegionRef × String) : Option (String × ℚ) :=
  match floatGap caption target.1.1 with
  | some gap => if best.all (gap < ·.2) then some (target.2, gap) else best
  | none => best

/-- A float with a caption attached. -/
def FloatItem.attach {Content : Type} (captionRef : String) (item : FloatItem Content) :
    FloatItem Content :=
  { item with
    captions := item.captions ++ [captionRef]
    children := item.children ++ [captionRef] }

/-- Attach a caption to the nearest float it labels. -/
def attachCaption (emission : Emission) (caption : RegionRef × String) : Emission :=
  let region := caption.1.1
  if region.right ≤ region.left ∨ region.bottom ≤ region.top then emission
  else
    match emission.floats.foldl (betterFloat region) none with
    | none => emission
    | some (float, _) =>
      { emission with
        texts := emission.texts.map fun item =>
          if item.selfRef = caption.2 then { item with parent := float } else item
        tables := emission.tables.map fun item =>
          if item.selfRef = float then item.attach caption.2 else item
        pictures := emission.pictures.map fun item =>
          if item.selfRef = float then item.attach caption.2 else item
        bodyOrder := emission.bodyOrder.filter (· ≠ caption.2) }

/-! ### What the walk adds -/

/-- What a stretch of the walk adds to the items of a page. -/
structure Gains (emission emission' : Emission) (texts : List TextContent)
    (tables : List TableContent) (pictures : List PictureContent) : Prop where
  texts : emission'.texts.map TextItem.content = emission.texts.map TextItem.content ++ texts
  tables : emission'.tables.map FloatItem.content =
    emission.tables.map FloatItem.content ++ tables
  pictures : emission'.pictures.map FloatItem.content =
    emission.pictures.map FloatItem.content ++ pictures

theorem Gains.refl (emission : Emission) :
  Gains emission emission [] [] []
  := ⟨by simp, by simp, by simp⟩

theorem Gains.trans {first second third : Emission} {texts texts' : List TextContent}
    {tables tables' : List TableContent} {pictures pictures' : List PictureContent}
    (h : Gains first second texts tables pictures)
    (h' : Gains second third texts' tables' pictures') :
  Gains first third (texts ++ texts') (tables ++ tables') (pictures ++ pictures')
  := by
  constructor
  · rw [h'.texts, h.texts, append_assoc]
  · rw [h'.tables, h.tables, append_assoc]
  · rw [h'.pictures, h.pictures, append_assoc]

def isTable (region : RegionRef) : Bool :=
  region.1.label = "table"

variable {page : OcrPage} {pageNumber : ℤ}

theorem gains_emitFloat (emission : Emission) (region : RegionRef) :
  Gains emission (emitFloat page pageNumber emission region) []
    (([region].filter isTable).map (tableContent page pageNumber))
    (([region].filter (!isTable ·)).map (pictureContent pageNumber))
  := by
  by_cases h : region.1.label = "table"
  · rw [emitFloat, if_pos h]
    constructor <;> simp [isTable, h]
  · rw [emitFloat, if_neg h]
    constructor <;> simp [isTable, h]

theorem gains_emitFloats (emission : Emission) (regions : List RegionRef) :
  Gains emission (regions.foldl (emitFloat page pageNumber) emission) []
    ((regions.filter isTable).map (tableContent page pageNumber))
    ((regions.filter (!isTable ·)).map (pictureContent pageNumber))
  := by
  induction regions generalizing emission with
  | nil => exact .refl emission
  | cons region regions ih =>
    have h := (@gains_emitFloat page pageNumber emission region).trans
      (ih (emitFloat page pageNumber emission region))
    rwa [← map_append, ← map_append, ← filter_append, ← filter_append] at h

/-- The text items that blocks become. -/
def printed (blocks : List TextBlock) : List TextBlock :=
  blocks.filter fun block => !block.suppressed && !block.blank

/-- The next block is printed, unless it is suppressed or blank, or it is refused. -/
theorem emitUnsuppressed_spec (emission : Emission) (block : TextBlock) :
  (block.TooLong ∧ emitUnsuppressed pageNumber emission block = .error .textBlockTooLong) ∨
    (¬ block.TooLong ∧ ∃ emission', emitUnsuppressed pageNumber emission block = .ok emission' ∧
      Gains emission emission' ((printed [block]).map (textContent pageNumber)) [] [])
  := by
  unfold emitUnsuppressed
  by_cases hsuppressed : block.suppressed
  · right
    constructor
    · exact fun h => by simp [h.1] at hsuppressed
    · use emission, if_pos hsuppressed
      simpa [printed, hsuppressed] using Gains.refl emission
  by_cases hlong : intMax < block.mergedText.codePoints
  · left
    constructor
    · exact ⟨by simpa using hsuppressed, hlong⟩
    · simp [hsuppressed, emitBlock, hlong]
  right
  constructor
  · exact fun h => hlong h.2
  by_cases hblank : block.blank
  · use emission
    constructor
    · have : block.mergedText.merged.all isSpaceByte := by rwa [merged_mergedText]
      rw [if_neg hsuppressed, emitBlock, if_neg hlong, if_pos this]
    · simpa [printed, hblank] using Gains.refl emission
  · have : ¬ block.mergedText.merged.all isSpaceByte := by rwa [merged_mergedText]
    rw [if_neg hsuppressed, emitBlock, if_neg hlong, if_neg this]
    exact ⟨_, rfl, by simp [printed, hsuppressed, hblank], by simp, by simp⟩

/-- Behind the floats of one anchor come those of later ones. -/
theorem lt_anchor_of_mem_dropWhile {index : ℕ} {placed : List Placed} {float : Placed}
    (hsorted : placed.Pairwise fun a b => a.anchor ≤ b.anchor)
    (hbounds : ∀ float ∈ placed, index ≤ float.anchor)
    (h : float ∈ placed.dropWhile (·.anchor = index)) :
  index < float.anchor
  := by
  induction placed with
  | nil => simp at h
  | cons first placed ih =>
    obtain ⟨hfirst, hsorted⟩ := pairwise_cons.mp hsorted
    by_cases hindex : first.anchor = index
    · rw [dropWhile_cons_of_pos (by simpa using hindex)] at h
      exact ih hsorted (fun other hother => hbounds other (by simp [hother])) h
    · rw [dropWhile_cons_of_neg (by simpa using hindex)] at h
      have hlt : index < first.anchor :=
        lt_of_le_of_ne (hbounds first (by simp)) (Ne.symm hindex)
      rcases mem_cons.mp h with rfl | hmem
      · exact hlt
      · exact hlt.trans_le (hfirst float hmem)

/-- Where the floats are in the order of their anchors, which are not behind the last block, the
walk prints every block and places every float, or it is refused. -/
theorem emitPage_spec (blocks : List TextBlock) {index : ℕ} {placed : List Placed}
    (emission : Emission) (hsorted : placed.Pairwise fun a b => a.anchor ≤ b.anchor)
    (hbounds : ∀ float ∈ placed, index ≤ float.anchor ∧ float.anchor ≤ index + blocks.length) :
  ((∃ block ∈ blocks, block.TooLong) ∧
      emitPage page pageNumber blocks index placed emission = .error .textBlockTooLong) ∨
    ((∀ block ∈ blocks, ¬ block.TooLong) ∧
      ∃ emission', emitPage page pageNumber blocks index placed emission = .ok emission' ∧
        Gains emission emission' ((printed blocks).map (textContent pageNumber))
          (((placed.map Placed.region).filter isTable).map (tableContent page pageNumber))
          (((placed.map Placed.region).filter (!isTable ·)).map (pictureContent pageNumber)))
  := by
  induction blocks generalizing index placed emission with
  | nil =>
    have hall : placed.takeWhile (·.anchor = index) = placed := by
      rw [takeWhile_eq_self_iff]
      intro float hfloat
      simpa using le_antisymm (hbounds float hfloat).2 (hbounds float hfloat).1
    refine .inr ⟨by simp, _, rfl, ?_⟩
    rw [hall]
    exact gains_emitFloats emission _
  | cons block blocks ih =>
    let now := (placed.takeWhile (·.anchor = index)).map Placed.region
    let later := placed.dropWhile (·.anchor = index)
    let emission₁ := now.foldl (emitFloat page pageNumber) emission
    have hfloats := @gains_emitFloats page pageNumber emission now
    have hregions : placed.map Placed.region = now ++ later.map Placed.region := by
      rw [← map_append, takeWhile_append_dropWhile]
    rcases @emitUnsuppressed_spec pageNumber emission₁ block with
      ⟨hlong, herror⟩ | ⟨hshort, emission₂, hok, hblock⟩
    · left
      use ⟨block, by simp, hlong⟩
      rw [emitPage]
      change emitUnsuppressed pageNumber emission₁ block >>= _ = _
      rw [herror]
      rfl
    have hstep : emitPage page pageNumber (block :: blocks) index placed emission =
        emitPage page pageNumber blocks (index + 1) later emission₂ := by
      rw [emitPage]
      change emitUnsuppressed pageNumber emission₁ block >>= _ = _
      rw [hok]
      rfl
    have hlater : ∀ float ∈ later,
        index + 1 ≤ float.anchor ∧ float.anchor ≤ index + 1 + blocks.length := by
      intro float hfloat
      have hmem := (dropWhile_sublist _).mem hfloat
      have hbound := (hbounds float hmem).2
      rw [length_cons] at hbound
      constructor
      · exact lt_anchor_of_mem_dropWhile hsorted (fun other h => (hbounds other h).1) hfloat
      · omega
    rw [hstep]
    rcases ih emission₂ (hsorted.sublist (dropWhile_sublist _)) hlater with
      ⟨⟨other, hother, hlong⟩, herror⟩ | ⟨hrest, emission', hemission, hgains⟩
    · exact .inl ⟨⟨other, mem_cons_of_mem _ hother, hlong⟩, herror⟩
    · right
      use forall_mem_cons.mpr ⟨hshort, hrest⟩, emission', hemission
      have htrans := (hfloats.trans hblock).trans hgains
      rw [hregions, filter_append, filter_append, map_append, map_append]
      simpa [printed, ← map_append, ← filter_append] using htrans

section

variable (isSiblingListMarker : List UInt8 → List UInt8 → Bool)

/-- The items of a finished page. -/
def Emission.pageData (emission : Emission) (pageNumber : ℤ) : PageData where
  pageNumber := pageNumber
  texts := emission.texts
  tables := emission.tables
  pictures := emission.pictures
  bodyOrder := emission.bodyOrder

/-- `append_page_data`. -/
def appendPageData (page : OcrPage) (pageNumber : ℤ) (cursor : AssemblyCursor) :
    Except AssemblyError (AssemblyCursor × PageData) := do
  let blocks := buildTextBlocks isSiblingListMarker page
  let emission ← emitPage page pageNumber blocks 0 (placedFloats page blocks) { cursor }
  let attached := emission.captions.foldl attachCaption emission
  return (attached.cursor, attached.pageData pageNumber)

/-! ### Nothing lost, nothing twice -/

/-- The lines of a page are in its blocks and in the cells of its tables, each once: every line
that is read is in one block, a block is suppressed exactly when a table carries its lines, and a
table has the texts of the lines it carries in its cells. -/
structure LinesOnce (page : OcrPage) : Prop where
  nodup : page.readableLines.Nodup
  blocks : ((buildTextBlocks isSiblingListMarker page).flatMap TextBlock.lines).Perm
    page.readableLines
  suppressed : ∀ block ∈ buildTextBlocks isSiblingListMarker page, ∀ line ∈ block.lines,
    (block.suppressed ↔ ∃ table ∈ tables page, claimsLine page table line)
  cells : ∀ table ∈ tables page, ∃ cellLines : List (List LineRef),
    (fillTableData page table).tableCells.map TableCell.text =
        cellLines.map (joinTexts space) ∧
      cellLines.flatten.Perm (page.readableLines.filter (claimsLine page table))

/-- Every block that is neither suppressed nor blank is printed once, in the order of the blocks,
and every table and every picture once. -/
structure Printed (page : OcrPage) (pageNumber : ℤ) (output : PageData) : Prop where
  texts : output.texts.map TextItem.content =
    (printed (buildTextBlocks isSiblingListMarker page)).map (textContent pageNumber)
  tables : (output.tables.map FloatItem.content).Perm
    ((tables page).map (tableContent page pageNumber))
  pictures : (output.pictures.map FloatItem.content).Perm
    ((pictures page).map (pictureContent pageNumber))

variable {isSiblingListMarker}

theorem linesOnce (page : OcrPage) :
  LinesOnce isSiblingListMarker page
  where
    nodup := nodup_readableLines page
    blocks := buildTextBlocks_perm page
    suppressed block hblock line hline := by
      rw [uniform_of_mem_buildTextBlocks hblock line hline]
      exact suppresses_iff
    cells table _ := exists_cellLines page table

/-- Attaching captions changes no content. -/
theorem contents_attachCaption (emission : Emission) (caption : RegionRef × String) :
  Gains emission (attachCaption emission caption) [] [] []
  := by
  unfold attachCaption
  dsimp only
  split
  case isTrue => exact .refl emission
  case isFalse =>
    split
    case h_1 => exact .refl emission
    case h_2 =>
      constructor
      all_goals
        rw [append_nil, map_map]
        apply map_congr_left
        intro item _
        dsimp only [Function.comp, FloatItem.attach]
        split <;> rfl

theorem contents_attachCaptions (emission : Emission) (captions : List (RegionRef × String)) :
  Gains emission (captions.foldl attachCaption emission) [] [] []
  := by
  induction captions generalizing emission with
  | nil => exact .refl emission
  | cons caption captions ih =>
    exact (contents_attachCaption emission caption).trans (ih _)

theorem filter_isTable (page : OcrPage) :
  (floatsOf page).filter isTable = tables page
  := by
  rw [floatsOf, filter_filter]
  apply filter_congr
  intro region _
  cases h : decide (region.1.label = "table") <;> simp [isTable, h]

theorem filter_not_isTable (page : OcrPage) :
  (floatsOf page).filter (!isTable ·) = pictures page
  := by
  rw [floatsOf, filter_filter]
  apply filter_congr
  intro region _
  by_cases h : region.1.label = "table" <;> simp [isTable, h]

/-- A page is printed, unless one of its blocks is refused. -/
theorem appendPageData_spec (page : OcrPage) (pageNumber : ℤ) (cursor : AssemblyCursor) :
  ((∃ block ∈ buildTextBlocks isSiblingListMarker page, block.TooLong) ∧
      appendPageData isSiblingListMarker page pageNumber cursor = .error .textBlockTooLong) ∨
    ((∀ block ∈ buildTextBlocks isSiblingListMarker page, ¬ block.TooLong) ∧
      ∃ cursor' output,
        appendPageData isSiblingListMarker page pageNumber cursor = .ok (cursor', output) ∧
          Printed isSiblingListMarker page pageNumber output)
  := by
  let blocks := buildTextBlocks isSiblingListMarker page
  have hplaced : (placedFloats page blocks).Perm
      ((floatsOf page).map fun region => ⟨region, regionAnchor blocks region⟩) := sortOn_perm _ _
  have hregions : ((placedFloats page blocks).map Placed.region).Perm (floatsOf page) := by
    simpa [Function.comp_def] using hplaced.map Placed.region
  have hsorted : (placedFloats page blocks).Pairwise fun a b => a.anchor ≤ b.anchor := by
    apply (pairwise_sortOn _ _).imp
    intro a b hle
    exact (Prod.Lex.le_iff.mp hle).elim (fun h => h.le) (fun h => h.1.le)
  have hbounds : ∀ float ∈ placedFloats page blocks,
      0 ≤ float.anchor ∧ float.anchor ≤ 0 + blocks.length := by
    intro float hfloat
    obtain ⟨region, -, rfl⟩ := mem_map.mp (hplaced.mem_iff.mp hfloat)
    simpa using regionAnchor_le blocks region
  have happend : appendPageData isSiblingListMarker page pageNumber cursor =
      emitPage page pageNumber blocks 0 (placedFloats page blocks) { cursor } >>= fun emission =>
        let attached := emission.captions.foldl attachCaption emission
        pure (attached.cursor, attached.pageData pageNumber) := rfl
  rw [happend]
  rcases @emitPage_spec page pageNumber blocks 0 _ { cursor } hsorted hbounds with
    ⟨hlong, herror⟩ | ⟨hshort, emission, hemission, hgains⟩
  · left
    use hlong
    rw [herror]
    rfl
  · right
    let attached := emission.captions.foldl attachCaption emission
    use hshort, attached.cursor, attached.pageData pageNumber
    have h := hgains.trans (contents_attachCaptions emission emission.captions)
    rw [append_nil, append_nil, append_nil] at h
    constructor
    · rw [hemission]
      rfl
    · constructor
      · exact h.texts
      · apply (List.Perm.of_eq h.tables).trans
        rw [← filter_isTable page]
        exact (hregions.filter isTable).map (tableContent page pageNumber)
      · apply (List.Perm.of_eq h.pictures).trans
        rw [← filter_not_isTable page]
        exact (hregions.filter (!isTable ·)).map (pictureContent pageNumber)

/-- No line of a page is lost and none is printed twice, unless a block that is to be printed has
too many characters, and then the page is refused. -/
theorem page_accounted (isSiblingListMarker : List UInt8 → List UInt8 → Bool) (page : OcrPage)
    (pageNumber : ℤ) (cursor : AssemblyCursor) :
  LinesOnce isSiblingListMarker page ∧
    ((∃ block ∈ buildTextBlocks isSiblingListMarker page, block.TooLong) ∧
        appendPageData isSiblingListMarker page pageNumber cursor = .error .textBlockTooLong ∨
      (∀ block ∈ buildTextBlocks isSiblingListMarker page, ¬ block.TooLong) ∧
        ∃ cursor' output,
          appendPageData isSiblingListMarker page pageNumber cursor = .ok (cursor', output) ∧
            Printed isSiblingListMarker page pageNumber output)
  := by
  constructor
  · exact linesOnce page
  · exact appendPageData_spec page pageNumber cursor

end

/-! ### A block with too many characters -/

/-- A page with one line, of as many `a`s as are asked for. -/
def longPage (count : ℕ) : OcrPage :=
  { lines := [⟨List.replicate count 0x61, [⟨0, 0⟩]⟩] }

section

variable {count : ℕ} (hcount : intMax < count)

include hcount

theorem readableLines_longPage :
  (longPage count).readableLines = [(⟨List.replicate count 0x61, [⟨0, 0⟩]⟩, 0)]
  := by
  have hpos : count ≠ 0 := by
    rintro rfl
    exact absurd hcount (by decide)
  simp [OcrPage.readableLines, longPage, OcrLine.readable, hpos]

/-- The one line is in a block of its own, which is to be printed. -/
theorem exists_longBlock :
  ∃ block ∈ buildTextBlocks (fun _ _ => false) (longPage count),
    block.suppressed = false ∧ block.lines = [(⟨List.replicate count 0x61, [⟨0, 0⟩]⟩, 0)]
  := by
  have hperm := @buildTextBlocks_perm (fun _ _ => false) (longPage count)
  rw [readableLines_longPage hcount] at hperm
  obtain ⟨block, hblock, hline⟩ :=
    mem_flatMap.mp (hperm.mem_iff.mpr (mem_singleton_self _))
  use block, hblock
  constructor
  · rw [uniform_of_mem_buildTextBlocks hblock _ hline]
    simp [suppresses, regionForLine, OcrPage.regionRefs, longPage]
  · have hsublist : block.lines.Sublist
        ((buildTextBlocks (fun _ _ => false) (longPage count)).flatMap TextBlock.lines) :=
      sublist_flatten_of_mem (mem_map_of_mem hblock)
    rw [hperm.eq_singleton, sublist_singleton] at hsublist
    exact hsublist.resolve_left block.nonempty

theorem not_printed_longBlock :
  ∃ block ∈ buildTextBlocks (fun _ _ => false) (longPage count),
    block.suppressed = false ∧ block.blank = false ∧
      ∀ result, appendPageData (fun _ _ => false) (longPage count) 1 {} ≠ .ok result
  := by
  obtain ⟨block, hblock, hsuppressed, hlines⟩ := exists_longBlock hcount
  use block, hblock, hsuppressed
  constructor
  · have hpos : count ≠ 0 := by
      rintro rfl
      exact absurd hcount (by decide)
    have hletter : isSpaceByte 0x61 = false := by decide
    simp [TextBlock.blank, TextBlock.joinedText, joinTexts, hlines, appendText, hpos, hletter]
  · have hlong : block.TooLong := by
      have hstarts : Utf8.startsChar 0x61 = true := by decide
      have hpoints : block.mergedText.codePoints = count := by
        simp [TextBlock.mergedText, MergedText.add, hlines, countP_replicate, hstarts]
      exact ⟨hsuppressed, by rwa [hpoints]⟩
    rcases @appendPageData_spec (fun _ _ => false) (longPage count) 1 {} with
      ⟨-, herror⟩ | ⟨hshort, -⟩
    · simp [herror]
    · exact absurd hlong (hshort block hblock)

end

/-- A block that is neither suppressed nor blank is not printed where it is too long. -/
theorem not_printed_longPage :
  ∃ block ∈ buildTextBlocks (fun _ _ => false) (longPage 2147483648),
    block.suppressed = false ∧ block.blank = false ∧
      ∀ result, appendPageData (fun _ _ => false) (longPage 2147483648) 1 {} ≠ .ok result
  := not_printed_longBlock (by decide)

end GRParse.Assembly
