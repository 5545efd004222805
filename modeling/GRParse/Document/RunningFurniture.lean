import GRParse.Document.RunningLines
import GRParse.Lib.Visit

/-!
# The demotion of running furniture

`demote_running_furniture` moves the running headers and footers of a document from the body to the
furniture tree.  It goes through the placed prose of the body page by page, floods the blocks of
each page, and keeps the short items whose blocks stand in a band as candidates.
-/

namespace GRParse.Running

open Containers Protobuf Layout Sorting List

/-! ### Documents -/

/-- The fields of a text item that the repair reads and writes. -/
structure TextItemBase extends Layout.TextItemBase where
  text : List UInt8 := []
  children : List RefItem := []
  contentLayer : ContentLayer := .unspecified
  deriving DecidableEq

/-- A slot of the text arena. -/
inductive BaseTextItem where
  | notSet
  | based (kind : BasedKind) (base : Option TextItemBase)
  | code (item : TextItemBase)
  deriving DecidableEq

/-- What the geometry of a document reads of a slot. -/
def BaseTextItem.layout : BaseTextItem → Layout.BaseTextItem
  | .notSet => .notSet
  | .based kind base => .based kind (base.map TextItemBase.toTextItemBase)
  | .code item => .code item.toTextItemBase

structure Document where
  texts : List BaseTextItem := []
  tables : List Layout.FloatItem := []
  pictures : List Layout.FloatItem := []
  body : Option Layout.GroupItem := none
  furniture : Option Layout.GroupItem := none
  pages : Map ℤ Layout.PageItem := ∅
  rest : Message := .done
  deriving DecidableEq

/-- What the geometry of a document reads of it. -/
def Document.layout (document : Document) : Layout.Document where
  texts := document.texts.map BaseTextItem.layout
  tables := document.tables
  pictures := document.pictures
  pages := document.pages

/-- The children of the body. -/
def Document.children (document : Document) : List RefItem :=
  (document.body.getD {}).children

/-- `page_heights`. -/
def Document.pageHeights (document : Document) : PageHeights :=
  documentPageHeights document.layout

/-- `page_count`: the pages of the document, else those that the provenance of its texts names. -/
def Document.pageCount (document : Document) : ℤ :=
  if document.pages.keys.card ≠ 0 then document.pages.keys.card
  else
    let entries := (document.layout.texts.filterMap Layout.BaseTextItem.textBaseOf).flatMap
      Layout.TextItemBase.prov
    ((entries.map Layout.ProvenanceItem.pageNo).filter (0 < ·)).dedup.length

def kFurnitureRef : String := "#/furniture"

/-- `text_index`: the slot of the text arena that a reference names, in at most nine digits. -/
def textIndex (ref : String) : Option ℕ :=
  if kTexts.toList.isPrefixOf ref.toList then
    let digits := ref.toList.drop kTexts.length
    if 9 < digits.length then none else ofDigits digits
  else none

/-- The base of a text item that is plain prose, `is_prose`. -/
def BaseTextItem.prose : BaseTextItem → Option TextItemBase
  | .based .text (some base) =>
    if base.label = .text ∨ base.label = .paragraph then some base else none
  | _ => none

/-- `prose_base`: the slot and the base of the prose that a child of the body names. -/
def Document.proseBase (document : Document) (child : RefItem) : Option (ℕ × TextItemBase) :=
  (textIndex child.ref).bind fun index =>
    (document.texts[index]?.bind BaseTextItem.prose).map fun base => (index, base)

/-- The text of a text item. -/
def BaseTextItem.text : BaseTextItem → List UInt8
  | .based .text base => (base.getD {}).text
  | _ => []

/-- The text of a slot. -/
def Document.textAt (document : Document) (index : ℕ) : List UInt8 :=
  (document.texts[index]?.map BaseTextItem.text).getD []

/-! ### Placed prose -/

/-- The line that a child of the body stands for. -/
def Document.line (document : Document) (options : RepairOptions) (child : RefItem) :
    Option Line :=
  (document.proseBase child).bind fun (index, base) =>
    if !base.children.isEmpty then none
    else if options.migrateFurnitureTree && base.contentLayer = .furniture then none
    else (placementOf base.prov document.pageHeights).map fun placement =>
      ⟨index, placement.page, placement.box⟩

/-- A child of the body that is placed prose. -/
structure PlacedProse extends Line where
  bodyIndex : ℕ
  deriving DecidableEq

/-- The children of the body that are placed prose. -/
def Document.placedProse (document : Document) (options : RepairOptions) : List PlacedProse :=
  document.children.zipIdx.filterMap fun (child, bodyIndex) =>
    (document.line options child).map fun line => ⟨line, bodyIndex⟩

/-- Whether items of one page are in one block, next to each other. -/
def adjacent (items : List PlacedProse) (a b : Fin items.length) : Bool :=
  neighbours items[a].box items[b].box

/-- An extent that takes in a box. -/
def widen (extent : ℚ × ℚ) (box : TopDownBox) : ℚ × ℚ :=
  (min extent.1 box.top, max extent.2 box.bottom)

/-- The vertical extent of the members of a block. -/
def blockExtent (items : List PlacedProse) : List (Fin items.length) → ℚ × ℚ
  | [] => (0, 0)
  | seed :: members =>
    members.foldl (fun extent member => widen extent items[member].box)
      (items[seed].box.top, items[seed].box.bottom)

/-- `block_extents`: the extent of the block of each item of a page. -/
def blockExtents (items : List PlacedProse) (item : Fin items.length) : ℚ × ℚ :=
  let blocks := Visit.floods (adjacent items) ∅ (List.finRange items.length)
  ((blocks.find? (item ∈ ·)).map (blockExtent items)).getD (0, 0)

/-- A band of a page. -/
inductive Band where
  | none
  | top
  | bottom
  deriving DecidableEq

/-- `band_of_extent`: the band that a vertical extent lies wholly inside. -/
def bandOfExtent (top bottom height fraction : ℚ) : Band :=
  if height ≤ 0 ∨ top < 0 ∨ height < bottom ∨ bottom < top then .none
  else if bottom ≤ height * fraction then .top
  else if height * (1 - fraction) ≤ top then .bottom
  else .none

/-! ### Candidates -/

/-- An item that may be running furniture. -/
structure FurnitureCandidate extends PlacedProse where
  band : Band
  normalized : List UInt8
  deriving DecidableEq

/-- The candidate an item is, by the extent of its block. -/
def Document.candidate (document : Document) (options : RepairOptions) (height : ℚ)
    (item : PlacedProse) (extent : ℚ × ℚ) : Option FurnitureCandidate :=
  let band := bandOfExtent extent.1 extent.2 height options.bandFraction
  let text := document.textAt item.arenaIndex
  let normalized := normalizeRunningText text
  if band = .none then none
  else if options.maximumFurnitureWords < wordCount text then none
  else if normalized.isEmpty then none
  else some ⟨item, band, normalized⟩

/-- The candidates among the items of a page. -/
def Document.pageCandidates (document : Document) (options : RepairOptions) (page : ℤ)
    (items : List PlacedProse) : List FurnitureCandidate :=
  match document.pageHeights page with
  | none => []
  | some height => (List.finRange items.length).filterMap fun item =>
    document.candidate options height items[item] (blockExtents items item)

/-- The candidates of all pages, in the order of the body. -/
def Document.candidates (document : Document) (options : RepairOptions) :
    List FurnitureCandidate :=
  let placed := document.placedProse options
  let pages := sortOn id (placed.map fun item => item.page).dedup
  sortOn (fun candidate => candidate.bodyIndex) (pages.flatMap fun page =>
    document.pageCandidates options page (placed.filter fun item => item.page = page))

/-- The number of pages on which the candidates have a pattern. -/
def patternPages (candidates : List FurnitureCandidate) (pattern : List UInt8) : ℕ :=
  ((candidates.filter fun candidate => candidate.normalized = pattern).map
    fun candidate => candidate.page).dedup.length

/-- A candidate whose pattern recurs on enough pages. -/
def Document.recurring (document : Document) (options : RepairOptions)
    (candidate : FurnitureCandidate) : Bool :=
  options.threshold document.pageCount ≤
    patternPages (document.candidates options) candidate.normalized

/-- The candidates that are demoted, in the order of their pages. -/
def Document.demoted (document : Document) (options : RepairOptions) : List FurnitureCandidate :=
  sortOn (fun candidate => toLex (candidate.page, candidate.bodyIndex))
    ((document.candidates options).filter fun candidate =>
      document.recurring options candidate ||
        isPageNumber (document.textAt candidate.arenaIndex) document.pageCount)

/-! ### The repair -/

def kPageNumberPattern : List UInt8 := literal "<page number>"

/-- A base that has become furniture. -/
def TextItemBase.asFurniture (base : TextItemBase) (band : Band) : TextItemBase :=
  { base with
    label := if band = .top then .pageHeader else .pageFooter
    contentLayer := .furniture
    parent := some ⟨kFurnitureRef⟩ }

/-- A slot that has become furniture. -/
def BaseTextItem.asFurniture (band : Band) : BaseTextItem → BaseTextItem
  | .based .text base => .based .text (some ((base.getD {}).asFurniture band))
  | item => item

/-- The patterns that the demoted candidates match. -/
def Document.patterns (document : Document) (options : RepairOptions) : List (List UInt8) :=
  let demoted := document.demoted options
  let matched := (demoted.filter (document.recurring options)).map FurnitureCandidate.normalized
  sortOn (List.map UInt8.toNat) matched.dedup ++
    if demoted.all (document.recurring options) then [] else [kPageNumberPattern]

/-- The children of the body that are not retired. -/
def keptChildren (children : List RefItem) (retired : List ℕ) : List RefItem :=
  (children.zipIdx.filter fun (_, index) => index ∉ retired).map Prod.fst

/-- The slots after the candidates have become furniture. -/
def relabel (texts : List BaseTextItem) (demoted : List FurnitureCandidate) : List BaseTextItem :=
  demoted.foldl (fun texts candidate =>
    texts.modify candidate.arenaIndex (BaseTextItem.asFurniture candidate.band)) texts

/-- The document after the candidates have been moved. -/
def Document.moved (document : Document) (demoted : List FurnitureCandidate) : Document :=
  { document with
    texts := relabel document.texts demoted
    furniture := some { document.furniture.getD {} with
      children := (document.furniture.getD {}).children ++
        demoted.filterMap fun candidate => document.children[candidate.bodyIndex]? }
    body := some { document.body.getD {} with
      children := keptChildren document.children
        (demoted.map fun candidate => candidate.bodyIndex) } }

/-- `demote_running_furniture`, with the count and the patterns. -/
def demoteRunningFurniture (document : Document) (options : RepairOptions) :
    Document × ℕ × List (List UInt8) :=
  let demoted := document.demoted options
  if document.pageCount < 2 then (document, 0, [])
  else if demoted.isEmpty then (document, 0, [])
  else (document.moved demoted, demoted.length, document.patterns options)

/-! ### Blocks -/

theorem adjacent_comm (items : List PlacedProse) (a b : Fin items.length) :
  adjacent items a b = adjacent items b a
  := neighbours_comm _ _

theorem foldl_widen (boxes : List TopDownBox) (extent : ℚ × ℚ) (c : ℚ) :
  (c ≤ (boxes.foldl widen extent).1 ↔ c ≤ extent.1 ∧ ∀ box ∈ boxes, c ≤ box.top) ∧
    ((boxes.foldl widen extent).2 ≤ c ↔ extent.2 ≤ c ∧ ∀ box ∈ boxes, box.bottom ≤ c)
  := by
  induction boxes generalizing extent with
  | nil => simp
  | cons box boxes ih =>
    rw [foldl_cons, (ih _).1, (ih _).2, widen, le_min_iff, max_le_iff, forall_mem_cons,
      forall_mem_cons, and_assoc, and_assoc]
    exact ⟨Iff.rfl, Iff.rfl⟩

/-- An extent is as far as the members reach. -/
def Reaches (items : List PlacedProse) (members : Fin items.length → Prop) (extent : ℚ × ℚ) :
    Prop :=
  ∀ c, (c ≤ extent.1 ↔ ∀ member, members member → c ≤ items[member].box.top) ∧
    (extent.2 ≤ c ↔ ∀ member, members member → items[member].box.bottom ≤ c)

theorem blockExtent_reaches (items : List PlacedProse) {members : List (Fin items.length)}
    (h : members ≠ []) :
  Reaches items (· ∈ members) (blockExtent items members)
  := by
  cases members with
  | nil => exact absurd rfl h
  | cons seed members =>
    intro c
    have hfold := foldl_widen (members.map fun member => items[member].box)
      (items[seed].box.top, items[seed].box.bottom) c
    rw [foldl_map] at hfold
    rw [blockExtent, hfold.1, hfold.2]
    simp

/-- The extent of an item is as far as the items reach that it is connected with. -/
theorem blockExtents_reaches (items : List PlacedProse) (item : Fin items.length) :
  Reaches items (Visit.Connected (adjacent items) item) (blockExtents items item)
  := by
  obtain ⟨hcover, hcomponents⟩ := @Visit.floods_spec _ _ (adjacent_comm items) ∅
    (fun _ ha => absurd ha (Finset.notMem_empty _)) (finRange items.length)
  obtain hnone | ⟨members, hmembers, hitem⟩ := hcover item (mem_finRange item)
  · exact absurd hnone (Finset.notMem_empty _)
  · obtain ⟨found, hfound⟩ : ∃ found, (Visit.floods (adjacent items) ∅
        (finRange items.length)).find? (item ∈ ·) = some found := by
      rw [← Option.isSome_iff_exists, find?_isSome]
      exact ⟨members, hmembers, by simpa using hitem⟩
    have hin : item ∈ found := by simpa using find?_some hfound
    have hconnected := hcomponents found (mem_of_find?_eq_some hfound) item hin
    rw [blockExtents, hfound, Option.map_some, Option.getD_some]
    have hreaches := blockExtent_reaches items (ne_nil_of_mem hin)
    simp only [hconnected] at hreaches
    exact hreaches

variable {items : List PlacedProse}

/-- Items are connected when their lines are in one block. -/
theorem mem_block_iff {placed : Set Line} {page : ℤ}
    (h : ∀ line, line ∈ placed ∧ line.page = page ↔ ∃ item ∈ items, item.toLine = line)
    (first : Fin items.length) (line : Line) :
  line ∈ block placed items[first].toLine ↔
    ∃ item, Visit.Connected (adjacent items) first item ∧ items[item].toLine = line
  := by
  have hpage : ∀ item : Fin items.length, items[item].page = page := fun item =>
    ((h items[item].toLine).mpr ⟨items[item], getElem_mem _, rfl⟩).2
  constructor
  · intro hblock
    induction hblock with
    | refl => exact ⟨first, .refl, rfl⟩
    | tail _ hstep ih =>
      obtain ⟨before, hconnected, rfl⟩ := ih
      obtain ⟨hplaced, hsame, hneighbours⟩ := hstep
      obtain ⟨item, hitem, rfl⟩ := (h _).mp ⟨hplaced, hsame.trans (hpage before)⟩
      obtain ⟨position, hlt, rfl⟩ := mem_iff_getElem.mp hitem
      exact ⟨⟨position, hlt⟩, hconnected.tail hneighbours, rfl⟩
  · rintro ⟨item, hconnected, rfl⟩
    induction hconnected with
    | refl => exact .refl
    | tail _ hstep ih =>
      rename_i before after _
      refine ih.tail ⟨((h _).mpr ⟨_, getElem_mem _, rfl⟩).1, ?_, hstep⟩
      exact (hpage after).trans (hpage before).symm

/-! ### Candidates -/

/-- An extent is in a band when it is in the page, and in the band at its top or at its bottom. -/
theorem bandOfExtent_ne_none {extent : ℚ × ℚ} {height fraction : ℚ} (hheight : 0 < height)
    (hextent : extent.1 ≤ extent.2) :
  bandOfExtent extent.1 extent.2 height fraction ≠ .none ↔
    0 ≤ extent.1 ∧ extent.2 ≤ height ∧
      (extent.2 ≤ height * fraction ∨ height * (1 - fraction) ≤ extent.1)
  := by
  rw [bandOfExtent]
  split
  case isTrue h =>
    constructor
    · exact fun hband => absurd rfl hband
    · rintro ⟨htop, hbottom, -⟩ _
      obtain h | h | h | h := h
      · exact absurd hheight h.not_gt
      · exact absurd htop h.not_ge
      · exact absurd hbottom h.not_ge
      · exact absurd hextent h.not_ge
  case isFalse h =>
    simp only [not_or, not_le, not_lt] at h
    have hin : 0 ≤ extent.1 ∧ extent.2 ≤ height := ⟨h.2.1, h.2.2.1⟩
    split
    case isTrue htop => simp [hin, htop]
    case isFalse htop =>
      split
      case isTrue hbottom => simp [hin, hbottom]
      case isFalse hbottom => simp [htop, hbottom]

variable {height : ℚ}

/-- The extent of a block is in a band exactly when the block is. -/
theorem bandOfExtent_block {placed : Set Line} {page : ℤ}
    (h : ∀ line, line ∈ placed ∧ line.page = page ↔ ∃ item ∈ items, item.toLine = line)
    (item : Fin items.length) (hheight : 0 < height) (fraction : ℚ) :
  bandOfExtent (blockExtents items item).1 (blockExtents items item).2 height fraction ≠ .none ↔
    InTopBand height fraction (block placed items[item].toLine) ∨
      InBottomBand height fraction (block placed items[item].toLine)
  := by
  have hreaches := blockExtents_reaches items item
  have hordered : (blockExtents items item).1 ≤ (blockExtents items item).2 := by
    have htop := (hreaches _).1.mp le_rfl item .refl
    have hbottom := (hreaches _).2.mp le_rfl item .refl
    exact htop.trans (items[item].box.top_le.trans hbottom)
  have hblock : ∀ P : Line → Prop, (∀ line ∈ block placed items[item].toLine, P line) ↔
      ∀ other, Visit.Connected (adjacent items) item other → P items[other].toLine := by
    intro P
    constructor
    · exact fun hall other hother => hall _ ((mem_block_iff h item _).mpr ⟨other, hother, rfl⟩)
    · intro hall line hline
      obtain ⟨other, hother, rfl⟩ := (mem_block_iff h item line).mp hline
      exact hall other hother
  rw [bandOfExtent_ne_none hheight hordered, (hreaches _).1, (hreaches _).1, (hreaches _).2,
    (hreaches _).2, InTopBand, InBottomBand, hblock, hblock]
  constructor
  · rintro ⟨htop, hbottom, hband⟩
    exact hband.imp
      (fun hband other hother => ⟨htop other hother, hbottom other hother, hband other hother⟩)
      (fun hband other hother => ⟨htop other hother, hbottom other hother, hband other hother⟩)
  · rintro (hband | hband)
    · exact ⟨fun other hother => (hband other hother).1, fun other hother => (hband other hother).2.1,
        .inl fun other hother => (hband other hother).2.2⟩
    · exact ⟨fun other hother => (hband other hother).1, fun other hother => (hband other hother).2.1,
        .inr fun other hother => (hband other hother).2.2⟩

variable (document : Document) (options : RepairOptions)

/-- The lines that the children of the body stand for. -/
def Document.placed : Set Line :=
  { line | ∃ child ∈ document.children, document.line options child = some line }

theorem mem_placedProse (item : PlacedProse) :
  item ∈ document.placedProse options ↔ ∃ child, document.children[item.bodyIndex]? = some child ∧
    document.line options child = some item.toLine
  := by
  obtain ⟨line, bodyIndex⟩ := item
  simp only [Document.placedProse, mem_filterMap, Option.map_eq_some_iff, PlacedProse.mk.injEq,
    mem_zipIdx_iff_getElem?, Prod.exists]
  constructor
  · rintro ⟨child, index, hchild, line, hline, rfl, rfl⟩
    exact ⟨child, hchild, hline⟩
  · rintro ⟨child, hchild, hline⟩
    exact ⟨child, bodyIndex, hchild, line, hline, rfl, rfl⟩

theorem mem_placed (line : Line) :
  line ∈ document.placed options ↔ ∃ item ∈ document.placedProse options, item.toLine = line
  := by
  constructor
  · rintro ⟨child, hchild, hline⟩
    obtain ⟨index, hindex⟩ := getElem?_of_mem hchild
    exact ⟨⟨line, index⟩, (mem_placedProse _ _ _).mpr ⟨child, hindex, hline⟩, rfl⟩
  · rintro ⟨item, hitem, rfl⟩
    obtain ⟨child, hchild, hline⟩ := (mem_placedProse _ _ _).mp hitem
    exact ⟨child, mem_of_getElem? hchild, hline⟩

/-- The items of a page are the placed prose on it. -/
theorem mem_page_placed (page : ℤ) (line : Line) :
  line ∈ document.placed options ∧ line.page = page ↔
    ∃ item ∈ (document.placedProse options).filter (fun item => item.page = page),
      item.toLine = line
  := by
  rw [mem_placed]
  constructor
  · rintro ⟨⟨item, hitem, rfl⟩, hpage⟩
    exact ⟨item, mem_filter.mpr ⟨hitem, by simpa using hpage⟩, rfl⟩
  · rintro ⟨item, hitem, rfl⟩
    obtain ⟨hitem, hpage⟩ := mem_filter.mp hitem
    exact ⟨⟨item, hitem, rfl⟩, by simpa using hpage⟩

/-- Whether the line of a child is a candidate of the body. -/
abbrev Document.Candidate (line : Line) : Prop :=
  Running.Candidate document.pageHeights options document.textAt (document.placed options) line

/-- A page that has a height has a positive one. -/
theorem pageHeights_pos {page : ℤ} (h : document.pageHeights page = some height) :
  0 < height
  := by
  rw [Document.pageHeights, documentPageHeights] at h
  split at h
  case h_1 item hstated =>
    cases h
    simpa using (Option.filter_eq_some_iff.mp hstated).2
  case h_2 =>
    dsimp only at h
    split at h
    case isTrue hextent =>
      cases h
      exact hextent
    case isFalse => cases h

variable {document options}

/-- A candidate is the item it comes from. -/
theorem candidate_fields {item : PlacedProse} {extent : ℚ × ℚ} {candidate : FurnitureCandidate}
    (h : document.candidate options height item extent = some candidate) :
  candidate.toPlacedProse = item ∧
    candidate.normalized = normalizeRunningText (document.textAt item.arenaIndex)
  := by
  rw [Document.candidate] at h
  split_ifs at h
  cases h
  exact ⟨rfl, rfl⟩

theorem candidate_isSome {item : PlacedProse} {extent : ℚ × ℚ} :
  (document.candidate options height item extent).isSome ↔
    bandOfExtent extent.1 extent.2 height options.bandFraction ≠ .none ∧
      Short options document.textAt item.toLine
  := by
  rw [Document.candidate, Short]
  split_ifs with hband hwords hempty
  · simp [hband]
  · simp [hwords.not_ge]
  · simp [isEmpty_iff.mp hempty]
  · simp only [Option.isSome_some, true_iff]
    exact ⟨hband, not_lt.mp hwords, by simpa using hempty⟩

/-- The items of a page that come out as candidates. -/
theorem page_candidate_isSome {page : ℤ} (hheight : document.pageHeights page = some height)
    (hitems : items = (document.placedProse options).filter fun item => item.page = page)
    (item : Fin items.length) :
  (document.candidate options height items[item] (blockExtents items item)).isSome ↔
    document.Candidate options items[item].toLine
  := by
  subst hitems
  have hlines := mem_page_placed document options page
  obtain ⟨hplaced, hpage⟩ := (hlines _).mpr ⟨_, getElem_mem item.isLt, rfl⟩
  rw [candidate_isSome, bandOfExtent_block hlines item (pageHeights_pos document hheight)]
  constructor
  · rintro ⟨hband, hshort⟩
    refine ⟨hplaced, ⟨height, ?_, hband⟩, hshort⟩
    rw [← hheight]
    exact congrArg _ hpage
  · rintro ⟨-, ⟨other, hother, hband⟩, hshort⟩
    obtain rfl : height = other := by
      rw [← Option.some_inj, ← hother, ← hheight]
      exact congrArg _ hpage.symm
    exact ⟨hband, hshort⟩

theorem of_mem_candidates {candidate : FurnitureCandidate}
    (h : candidate ∈ document.candidates options) :
  candidate.toPlacedProse ∈ document.placedProse options ∧
    document.Candidate options candidate.toLine ∧
    candidate.normalized = normalizeRunningText (document.textAt candidate.arenaIndex)
  := by
  rw [Document.candidates, (sortOn_perm _ _).mem_iff, mem_flatMap] at h
  obtain ⟨page, -, h⟩ := h
  rw [Document.pageCandidates] at h
  cases hheight : document.pageHeights page with
  | none => simp [hheight] at h
  | some height =>
    rw [hheight] at h
    obtain ⟨item, -, hcandidate⟩ := mem_filterMap.mp h
    obtain ⟨hitem, hnormalized⟩ := candidate_fields hcandidate
    have hmem := (page_candidate_isSome hheight rfl item).mp (by rw [hcandidate]; rfl)
    rw [← hitem] at hmem hnormalized
    refine ⟨?_, hmem, hnormalized⟩
    rw [hitem]
    exact mem_of_mem_filter (getElem_mem item.isLt)

theorem exists_candidate {item : PlacedProse} (hitem : item ∈ document.placedProse options)
    (h : document.Candidate options item.toLine) :
  ∃ candidate ∈ document.candidates options, candidate.toPlacedProse = item
  := by
  obtain ⟨height, hheight, -⟩ := h.band
  have hpage : item ∈ (document.placedProse options).filter fun other => other.page = item.page :=
    mem_filter.mpr ⟨hitem, by simp⟩
  obtain ⟨index, hindex, heq⟩ := mem_iff_getElem.mp hpage
  have hsome := (page_candidate_isSome hheight rfl ⟨index, hindex⟩).mpr (by
    simpa [heq] using h)
  obtain ⟨candidate, hcandidate⟩ := Option.isSome_iff_exists.mp hsome
  refine ⟨candidate, ?_, (candidate_fields hcandidate).1.trans heq⟩
  rw [Document.candidates, (sortOn_perm _ _).mem_iff, mem_flatMap]
  refine ⟨item.page, ?_, ?_⟩
  · rw [(sortOn_perm _ _).mem_iff, mem_dedup]
    exact mem_map_of_mem hitem
  · rw [Document.pageCandidates, hheight]
    exact mem_filterMap.mpr ⟨_, mem_finRange _, hcandidate⟩

/-- Whether the line of a child runs through the body. -/
abbrev Document.Runs (document : Document) (options : RepairOptions) (line : Line) : Prop :=
  Running.Runs document.pageHeights options document.textAt document.pageCount
    (document.placed options) line

/-- The number of pages that a pattern is counted on is that on which it recurs. -/
theorem patternPages_eq (line : Line) :
  patternPages (document.candidates options)
      (normalizeRunningText (document.textAt line.arenaIndex)) =
    (recurrence document.pageHeights options document.textAt (document.placed options) line).ncard
  := by
  have hset : recurrence document.pageHeights options document.textAt
      (document.placed options) line = ((((document.candidates options).filter fun candidate =>
        candidate.normalized = normalizeRunningText (document.textAt line.arenaIndex)).map
          fun candidate => candidate.page).toFinset : Set ℤ) := by
    ext page
    simp only [recurrence, Set.mem_ofPred_eq, coe_toFinset, mem_map, mem_filter,
      decide_eq_true_eq]
    constructor
    · rintro ⟨other, hother, rfl, htext⟩
      obtain ⟨item, hitem, rfl⟩ := (mem_placed _ _ _).mp hother.mem
      obtain ⟨candidate, hcandidate, rfl⟩ := exists_candidate hitem hother
      exact ⟨candidate, ⟨hcandidate, (of_mem_candidates hcandidate).2.2.trans htext⟩, rfl⟩
    · rintro ⟨candidate, ⟨hcandidate, htext⟩, rfl⟩
      obtain ⟨-, hother, hnormalized⟩ := of_mem_candidates hcandidate
      exact ⟨candidate.toLine, hother, rfl, hnormalized.symm.trans htext⟩
  rw [hset, Set.ncard_coe_finset, card_toFinset, patternPages]

/-- The demoted items are the placed prose whose lines run through the body. -/
theorem mem_demoted (item : PlacedProse) :
  (∃ candidate ∈ document.demoted options, candidate.toPlacedProse = item) ↔
    item ∈ document.placedProse options ∧ document.Runs options item.toLine
  := by
  simp only [Document.demoted, (sortOn_perm _ _).mem_iff, mem_filter]
  constructor
  · rintro ⟨candidate, ⟨hcandidate, hdemoted⟩, rfl⟩
    obtain ⟨hplaced, hline, hnormalized⟩ := of_mem_candidates hcandidate
    refine ⟨hplaced, hline, ?_⟩
    rw [Bool.or_eq_true, Document.recurring, decide_eq_true_eq, hnormalized] at hdemoted
    rw [← patternPages_eq]
    exact hdemoted
  · rintro ⟨hitem, hline, hrecurs⟩
    obtain ⟨candidate, hcandidate, rfl⟩ := exists_candidate hitem hline
    refine ⟨candidate, ⟨hcandidate, ?_⟩, rfl⟩
    rw [Bool.or_eq_true, Document.recurring, decide_eq_true_eq,
      (of_mem_candidates hcandidate).2.2]
    rw [← patternPages_eq] at hrecurs
    exact hrecurs

/-! ### The order of the demoted items -/

theorem map_filterMap_sublist {α β γ : Type} {f : α → Option β} {g : β → γ} {h : α → γ}
    (hfields : ∀ a b, f a = some b → g b = h a) (l : List α) :
  ((l.filterMap f).map g).Sublist (l.map h)
  := by
  induction l with
  | nil => exact .slnil
  | cons a l ih =>
    rw [filterMap_cons, map_cons]
    cases hf : f a with
    | none => exact ih.cons _
    | some b =>
      rw [map_cons, hfields a b hf]
      exact ih.cons_cons _

theorem nodup_placedProse :
  (document.placedProse options).Nodup
  := by
  apply List.Nodup.of_map fun item => item.bodyIndex
  refine (map_filterMap_sublist ?_ document.children.zipIdx).nodup
    (nodup_zipIdx_map_snd document.children)
  rintro ⟨child, index⟩ item hitem
  obtain ⟨line, -, rfl⟩ := Option.map_eq_some_iff.mp hitem
  rfl

theorem nodup_candidates :
  ((document.candidates options).map FurnitureCandidate.toPlacedProse).Nodup
  := by
  have hsublist : ∀ page items, ((document.pageCandidates options page items).map
      FurnitureCandidate.toPlacedProse).Sublist items := by
    intro page items
    rw [Document.pageCandidates]
    split
    case h_1 => exact items.nil_sublist
    case h_2 height _ =>
      have h := map_filterMap_sublist (g := FurnitureCandidate.toPlacedProse)
        (h := fun item : Fin items.length => items[item])
        (fun _ _ hcandidate => (candidate_fields hcandidate).1) (finRange items.length)
        (f := fun item =>
          document.candidate options height items[item] (blockExtents items item))
      have hitems : (finRange items.length).map (fun item => items[item]) = items :=
        map_getElem_finRange items
      rw [hitems] at h
      exact h
  rw [Document.candidates, ((sortOn_perm _ _).map _).nodup_iff, map_flatMap,
    nodup_flatMap]
  constructor
  · exact fun page _ => (hsublist page _).nodup (nodup_placedProse.filter _)
  · rw [List.Perm.pairwise_iff _ (sortOn_perm _ _)]
    · refine (nodup_dedup _).imp fun hpages item hfirst hsecond => hpages ?_
      have hfirst := of_mem_filter ((hsublist _ _).subset hfirst)
      have hsecond := of_mem_filter ((hsublist _ _).subset hsecond)
      simp only [decide_eq_true_eq] at hfirst hsecond
      exact hfirst.symm.trans hsecond
    · exact fun hdisjoint item hfirst hsecond => hdisjoint hsecond hfirst

/-- An item is determined by its position in the body. -/
theorem placedProse_ext {a b : PlacedProse} (ha : a ∈ document.placedProse options)
    (hb : b ∈ document.placedProse options) (h : a.bodyIndex = b.bodyIndex) :
  a = b
  := by
  obtain ⟨child, hchild, hline⟩ := (mem_placedProse _ _ _).mp ha
  obtain ⟨other, hother, hsame⟩ := (mem_placedProse _ _ _).mp hb
  rw [← h, hchild] at hother
  obtain rfl := Option.some.inj hother
  rw [hline] at hsame
  obtain ⟨line, index⟩ := a
  obtain ⟨line', index'⟩ := b
  obtain rfl : line = line' := Option.some.inj hsame
  obtain rfl : index = index' := h
  rfl

/-- Items go by their pages, and by their positions in the body on one page. -/
def Before (a b : PlacedProse) : Prop :=
  a.page < b.page ∨ a.page = b.page ∧ a.bodyIndex < b.bodyIndex

theorem pairwise_demoted :
  ((document.demoted options).map FurnitureCandidate.toPlacedProse).Pairwise Before
  := by
  have hsorted := pairwise_sortOn
    (fun candidate : FurnitureCandidate => toLex (candidate.page, candidate.bodyIndex))
    ((document.candidates options).filter fun candidate =>
      document.recurring options candidate ||
        isPageNumber (document.textAt candidate.arenaIndex) document.pageCount)
  have hnodup : ((document.demoted options).map FurnitureCandidate.toPlacedProse).Nodup := by
    rw [Document.demoted, ((sortOn_perm _ _).map _).nodup_iff]
    exact (filter_sublist.map _).nodup nodup_candidates
  rw [← Document.demoted] at hsorted
  rw [List.Nodup, pairwise_map] at hnodup
  rw [pairwise_map]
  refine (pairwise_and_iff.mpr ⟨hsorted, hnodup⟩).imp_of_mem fun {a b} ha hb h => ?_
  obtain ⟨hle, hne⟩ := h
  have hplaced : ∀ candidate ∈ document.demoted options,
      candidate.toPlacedProse ∈ document.placedProse options := fun candidate hcandidate =>
    ((mem_demoted _).mp ⟨candidate, hcandidate, rfl⟩).1
  obtain hlt | ⟨heq, hindex⟩ := Prod.Lex.toLex_le_toLex.mp hle
  · exact .inl hlt
  · refine .inr ⟨heq, lt_of_le_of_ne hindex fun hsame => hne ?_⟩
    exact placedProse_ext (hplaced a ha) (hplaced b hb) hsame

/-! ### What the repair leaves -/

/-- What furniture keeps of a slot. -/
theorem map_relabel {α : Type} {f : BaseTextItem → α}
    (h : ∀ band item, f (BaseTextItem.asFurniture band item) = f item) (texts : List BaseTextItem)
    (demoted : List FurnitureCandidate) :
  (relabel texts demoted).map f = texts.map f
  := by
  induction demoted generalizing texts with
  | nil => rfl
  | cons candidate demoted ih =>
    rw [relabel, foldl_cons]
    refine (ih _).trans (ext_getElem? fun index => ?_)
    rw [getElem?_map, getElem?_map, getElem?_modify]
    cases texts[index]? with
    | none => rfl
    | some item =>
      refine congrArg some ?_
      split
      · exact h _ _
      · rfl

/-- The other slots stay as they are. -/
theorem getElem?_relabel {index : ℕ} {demoted : List FurnitureCandidate}
    (h : ∀ candidate ∈ demoted, candidate.arenaIndex ≠ index) (texts : List BaseTextItem) :
  (relabel texts demoted)[index]? = texts[index]?
  := by
  induction demoted generalizing texts with
  | nil => rfl
  | cons candidate demoted ih =>
    obtain ⟨hfirst, hrest⟩ := forall_mem_cons.mp h
    rw [relabel, foldl_cons]
    refine (ih hrest _).trans ?_
    rw [getElem?_modify]
    simp only [hfirst, if_false]
    exact Option.map_id'

theorem prov_asFurniture (band : Band) (item : BaseTextItem) :
  (BaseTextItem.asFurniture band item).layout.textBaseOf.map Layout.TextItemBase.prov =
      item.layout.textBaseOf.map Layout.TextItemBase.prov ∧
    (BaseTextItem.asFurniture band item).layout.prov = item.layout.prov
  := by
  cases item with
  | notSet => exact ⟨rfl, rfl⟩
  | code item => exact ⟨rfl, rfl⟩
  | based kind base => cases kind <;> cases base <;> exact ⟨rfl, rfl⟩

theorem text_asFurniture (band : Band) (item : BaseTextItem) :
  (BaseTextItem.asFurniture band item).text = item.text
  := by
  cases item with
  | notSet => rfl
  | code item => rfl
  | based kind base => cases kind <;> rfl

section Moved

variable (document : Document) (demoted : List FurnitureCandidate)

@[simp]
theorem pageHeights_moved :
  (document.moved demoted).pageHeights = document.pageHeights
  := by
  have hprovs : (document.moved demoted).layout.provs = document.layout.provs := by
    have htexts := map_relabel (f := fun item => item.layout.prov)
      (fun band item => (prov_asFurniture band item).2) document.texts demoted
    simp only [Arenas.provs, Document.layout, Document.moved, flatMap_map]
    rw [flatMap_def, htexts, ← flatMap_def]
  funext page
  simp only [Document.pageHeights, documentPageHeights, hprovs]
  rfl

@[simp]
theorem pageCount_moved :
  (document.moved demoted).pageCount = document.pageCount
  := by
  have htexts := map_relabel
    (f := fun item => item.layout.textBaseOf.map Layout.TextItemBase.prov)
    (fun band item => (prov_asFurniture band item).1) document.texts demoted
  have hentries : ∀ texts : List BaseTextItem,
      ((texts.map BaseTextItem.layout).filterMap Layout.BaseTextItem.textBaseOf).flatMap
        Layout.TextItemBase.prov =
      ((texts.map fun item => item.layout.textBaseOf.map Layout.TextItemBase.prov).filterMap
        id).flatten := by
    intro texts
    rw [flatMap_def, map_filterMap, filterMap_map, filterMap_map]
    rfl
  simp only [Document.pageCount, Document.layout, hentries, Document.moved, htexts]

@[simp]
theorem textAt_moved :
  (document.moved demoted).textAt = document.textAt
  := by
  funext index
  rw [Document.textAt, Document.textAt, ← getElem?_map, ← getElem?_map, Document.moved,
    map_relabel text_asFurniture]

end Moved

theorem children_moved (demoted : List FurnitureCandidate) :
  (document.moved demoted).children =
    keptChildren document.children (demoted.map fun candidate => candidate.bodyIndex)
  := rfl

variable {child : RefItem}

theorem mem_keptChildren {children : List RefItem} {retired : List ℕ} :
  child ∈ keptChildren children retired ↔ ∃ index ∉ retired, children[index]? = some child
  := by
  simp only [keptChildren, mem_map, mem_filter, mem_zipIdx_iff_getElem?, Prod.exists,
    decide_eq_true_eq]
  constructor
  · rintro ⟨_, index, ⟨hchild, hindex⟩, rfl⟩
    exact ⟨index, hindex, hchild⟩
  · rintro ⟨index, hindex, hchild⟩
    exact ⟨child, index, ⟨hchild, hindex⟩, rfl⟩

/-- The children that are demoted stand for the lines that run through the body. -/
theorem mem_retired {index : ℕ} (hchild : document.children[index]? = some child) :
  index ∈ (document.demoted options).map (fun candidate => candidate.bodyIndex) ↔
    ∃ line, document.line options child = some line ∧ document.Runs options line
  := by
  rw [mem_map]
  constructor
  · rintro ⟨candidate, hcandidate, rfl⟩
    obtain ⟨hplaced, hruns⟩ := (mem_demoted _).mp ⟨candidate, hcandidate, rfl⟩
    obtain ⟨other, hother, hline⟩ := (mem_placedProse _ _ _).mp hplaced
    rw [hchild] at hother
    obtain rfl := Option.some.inj hother
    exact ⟨_, hline, hruns⟩
  · rintro ⟨line, hline, hruns⟩
    obtain ⟨candidate, hcandidate, hitem⟩ := (mem_demoted ⟨line, index⟩).mpr
      ⟨(mem_placedProse _ _ _).mpr ⟨child, hchild, hline⟩, hruns⟩
    exact ⟨candidate, hcandidate, congrArg PlacedProse.bodyIndex hitem⟩

theorem line_textIndex {line : Line} (h : document.line options child = some line) :
  textIndex child.ref = some line.arenaIndex
  := by
  obtain ⟨⟨index, base⟩, hbase, hline⟩ := Option.bind_eq_some_iff.mp h
  obtain ⟨slot, hslot, hprose⟩ := Option.bind_eq_some_iff.mp hbase
  obtain ⟨prose, -, hpair⟩ := Option.map_eq_some_iff.mp hprose
  cases hpair
  dsimp only at hline
  split_ifs at hline
  obtain ⟨placement, -, rfl⟩ := Option.map_eq_some_iff.mp hline
  exact hslot

theorem line_congr {child other : RefItem} (h : textIndex child.ref = textIndex other.ref) :
  document.line options child = document.line options other
  := by
  rw [Document.line, Document.line, Document.proseBase, Document.proseBase, h]

/-- A child that is kept stands for the line it did. -/
theorem line_moved (h : child ∈ (document.moved (document.demoted options)).children) :
  (document.moved (document.demoted options)).line options child = document.line options child
  := by
  rw [children_moved, mem_keptChildren] at h
  obtain ⟨position, hkept, hchild⟩ := h
  rw [mem_retired hchild] at hkept
  rw [Document.line, Document.line, Document.proseBase, Document.proseBase, pageHeights_moved]
  cases hindex : textIndex child.ref with
  | none => rfl
  | some index =>
    have hslot : (document.moved (document.demoted options)).texts[index]? =
        document.texts[index]? := by
      refine getElem?_relabel (fun candidate hcandidate hsame => hkept ?_) document.texts
      -- The slot of a demoted item would make the child stand for its line.
      obtain ⟨hplaced, hruns⟩ := (mem_demoted _).mp ⟨candidate, hcandidate, rfl⟩
      obtain ⟨other, -, hline⟩ := (mem_placedProse _ _ _).mp hplaced
      refine ⟨_, (line_congr ?_).trans hline, hruns⟩
      rw [hindex, line_textIndex hline, ← hsame]
    rw [Option.bind_some, Option.bind_some, hslot]

/-- The lines that stay are those that do not run through the body. -/
theorem placed_moved :
  (document.moved (document.demoted options)).placed options =
    { line ∈ document.placed options | ¬ document.Runs options line }
  := by
  ext line
  constructor
  · rintro ⟨child, hchild, hline⟩
    rw [line_moved hchild] at hline
    rw [children_moved, mem_keptChildren] at hchild
    obtain ⟨position, hkept, hchild⟩ := hchild
    refine ⟨⟨child, mem_of_getElem? hchild, hline⟩, fun hruns => hkept ?_⟩
    exact (mem_retired hchild).mpr ⟨line, hline, hruns⟩
  · rintro ⟨⟨child, hchild, hline⟩, hstays⟩
    have hmem : child ∈ (document.moved (document.demoted options)).children := by
      obtain ⟨position, hposition⟩ := getElem?_of_mem hchild
      rw [children_moved, mem_keptChildren]
      refine ⟨position, fun hretired => hstays ?_, hposition⟩
      obtain ⟨other, hother, hruns⟩ := (mem_retired hposition).mp hretired
      rw [hline] at hother
      exact Option.some.inj hother ▸ hruns
    exact ⟨child, hmem, (line_moved hmem).trans hline⟩

theorem finite_placed :
  (document.placed options).Finite
  := by
  refine ((document.placedProse options).map PlacedProse.toLine).toFinset.finite_toSet.subset ?_
  intro line hline
  obtain ⟨item, hitem, rfl⟩ := (mem_placed _ _ _).mp hline
  simpa using ⟨item, hitem, rfl⟩

/-- No line is demoted from what the repair leaves. -/
theorem demoted_moved :
  (document.moved (document.demoted options)).demoted options = []
  := by
  rw [eq_nil_iff_forall_not_mem]
  intro candidate hcandidate
  obtain ⟨-, hruns⟩ := (mem_demoted _).mp ⟨candidate, hcandidate, rfl⟩
  rw [Document.Runs, pageHeights_moved, pageCount_moved, textAt_moved, placed_moved] at hruns
  exact not_runs_stays finite_placed _ hruns

/-- What the repair leaves stays as it is. -/
theorem demoteRunningFurniture_again (document : Document) (options : RepairOptions) :
  demoteRunningFurniture (demoteRunningFurniture document options).1 options =
    ((demoteRunningFurniture document options).1, 0, [])
  := by
  by_cases hpages : document.pageCount < 2
  · simp only [demoteRunningFurniture, hpages, if_true]
  · by_cases hdemoted : (document.demoted options).isEmpty
    · simp only [demoteRunningFurniture, hpages, if_false, hdemoted, if_true]
    · rw [demoteRunningFurniture, demoteRunningFurniture, if_neg hpages, if_neg hdemoted]
      simp only [pageCount_moved, hpages, if_false, demoted_moved, isEmpty_nil, if_true]

/-! ### The demotion -/

theorem keptChildren_nil (children : List RefItem) :
  keptChildren children [] = children
  := by
  simp [keptChildren]

/-- The children that move, with where they go and how many they are. -/
theorem demoteRunningFurniture_eq (hpages : ¬ document.pageCount < 2) :
  (demoteRunningFurniture document options).1.children = keptChildren document.children
      ((document.demoted options).map fun candidate => candidate.bodyIndex) ∧
    ((demoteRunningFurniture document options).1.furniture.getD {}).children =
      (document.furniture.getD {}).children ++ (document.demoted options).filterMap
        (fun candidate => document.children[candidate.bodyIndex]?) ∧
    (demoteRunningFurniture document options).2.1 = (document.demoted options).length
  := by
  rw [demoteRunningFurniture, if_neg hpages]
  split
  case isTrue hnone =>
    rw [isEmpty_iff.mp hnone]
    exact ⟨(keptChildren_nil _).symm, (append_nil _).symm, rfl⟩
  case isFalse => exact ⟨rfl, rfl, rfl⟩

/-- On a document of at least two pages the repair moves the children of the body whose lines run
through it, in the order of their pages, and leaves the others in their order; it moves nothing
more when it is run again. -/
theorem demoteRunningFurniture_settles (document : Document) (options : RepairOptions)
    (hpages : 2 ≤ document.pageCount) :
  ∃ moved : List PlacedProse, moved.Pairwise Before ∧
    (∀ item, item ∈ moved ↔ (∃ child, document.children[item.bodyIndex]? = some child ∧
      document.line options child = some item.toLine) ∧ document.Runs options item.toLine) ∧
    (demoteRunningFurniture document options).1.children =
      keptChildren document.children (moved.map PlacedProse.bodyIndex) ∧
    ((demoteRunningFurniture document options).1.furniture.getD {}).children =
      (document.furniture.getD {}).children ++
        moved.filterMap (fun item => document.children[item.bodyIndex]?) ∧
    (demoteRunningFurniture document options).2.1 = moved.length ∧
    demoteRunningFurniture (demoteRunningFurniture document options).1 options =
      ((demoteRunningFurniture document options).1, 0, [])
  := by
  have hmoved := @demoteRunningFurniture_eq document options
    (not_lt.mpr hpages)
  refine ⟨(document.demoted options).map FurnitureCandidate.toPlacedProse, pairwise_demoted, ?_⟩
  refine ⟨?_, ?_, ?_, ?_, demoteRunningFurniture_again document options⟩
  · intro item
    rw [List.mem_map, mem_demoted, mem_placedProse]
  · rw [hmoved.1, List.map_map]
    rfl
  · rw [hmoved.2.1, List.filterMap_map]
    rfl
  · rw [hmoved.2.2, List.length_map]

/-- A document of two pages, each with its number at its top. -/
def numbered : Document :=
  let number (text : String) (pageNo : ℤ) : BaseTextItem := .based .text (some {
    label := .text, prov := [⟨pageNo, some ⟨50, 10, 60, 20, .topLeft⟩, .done⟩]
    text := literal text })
  { texts := [number "1" 1, number "2" 2, .based .text (some {
      label := .text, prov := [⟨2, some ⟨50, 300, 500, 700, .topLeft⟩, .done⟩]
      text := literal "body" })]
    body := some { children := [⟨"#/texts/0"⟩, ⟨"#/texts/1"⟩, ⟨"#/texts/2"⟩] }
    pages := List.toFinmap [⟨1, { height := 800 }⟩, ⟨2, { height := 800 }⟩] }

theorem demoteRunningFurniture_settles_numbered :
  2 ≤ numbered.pageCount ∧ ∃ moved : List PlacedProse, moved.length = 2 ∧
    (demoteRunningFurniture numbered {}).1.children =
      keptChildren numbered.children (moved.map PlacedProse.bodyIndex)
  := by
  have hpages : 2 ≤ numbered.pageCount := by decide +kernel
  obtain ⟨moved, -, -, hkept, -, hcount, -⟩ := demoteRunningFurniture_settles numbered {} hpages
  have hlength : (demoteRunningFurniture numbered {}).2.1 = 2 := by decide +kernel
  exact ⟨hpages, moved, hcount.symm.trans hlength, hkept⟩

end GRParse.Running
