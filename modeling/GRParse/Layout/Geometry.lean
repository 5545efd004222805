import GRParse.Document.References
import GRParse.Layout.XyCut

/-!
# The geometry of a finished document

The part of a `Document` that says where its items sit: the provenance of the items in the
arenas, the labels that set items apart on a page, and the heights of the pages.  Coordinates
are exact.  A box that was brought into top-down space has its edges in order.
-/

namespace GRParse.Layout

open Containers Protobuf

/-! ### The document -/

/-- Where the coordinates of a box start. -/
inductive CoordOrigin where
  | unspecified
  | topLeft
  | bottomLeft
  deriving DecidableEq

/-- A box as its producer states it. -/
structure BoundingBox where
  l : ℚ := 0
  t : ℚ := 0
  r : ℚ := 0
  b : ℚ := 0
  coordOrigin : CoordOrigin := .unspecified
  deriving DecidableEq

structure ProvenanceItem where
  pageNo : ℤ := 0
  bbox : Option BoundingBox := none
  rest : Message := .done
  deriving DecidableEq

/-- Where content came from: the name of its collector, unless a track or a model made it. -/
structure SourceType where
  collector : Option String := none
  rest : Message := .done
  deriving DecidableEq

/-- What an item is. -/
inductive DocItemLabel where
  | unspecified | caption | chart | checkboxSelected | checkboxUnselected | code
  | documentIndex | emptyValue | footnote | form | formula | gradingScale | handwrittenText
  | keyValueRegion | listItem | pageFooter | pageHeader | paragraph | picture | reference
  | sectionHeader | table | text | title | fieldRegion | fieldHeading | fieldItem | fieldKey
  | fieldValue | fieldHint | marker | seal | aside | algorithm
  deriving DecidableEq

/-- What text items carry, in their base or inline. -/
structure TextItemBase where
  parent : Option RefItem := none
  label : DocItemLabel := .unspecified
  prov : List ProvenanceItem := []
  source : List SourceType := []
  rest : Message := .done
  deriving DecidableEq

/-- A slot of the text arena: one of the kinds with a base, a code item, which carries its
fields inline, or not set. -/
inductive BaseTextItem where
  | notSet
  | based (kind : BasedKind) (base : Option TextItemBase)
  | code (item : TextItemBase)
  deriving DecidableEq

/-- A slot of the table arena or of the picture arena. -/
structure FloatItem where
  prov : List ProvenanceItem := []
  source : List SourceType := []
  rest : Message := .done
  deriving DecidableEq

/-- A slot of the group arena, or the root of the body. -/
structure GroupItem where
  selfRef : String := ""
  parent : Option RefItem := none
  children : List RefItem := []
  rest : Message := .done
  deriving DecidableEq

structure PageItem where
  height : ℚ := 0
  rest : Message := .done
  deriving DecidableEq

/-- The arenas that references lead into. -/
structure Arenas where
  texts : List BaseTextItem := []
  tables : List FloatItem := []
  pictures : List FloatItem := []
  groups : List GroupItem := []

structure Document extends Arenas where
  body : Option GroupItem := none
  pages : Map ℤ PageItem := ∅
  rest : Message := .done

/-- The children of the body. -/
def Document.children (document : Document) : List RefItem :=
  (document.body.getD {}).children

/-- `text_base_of`. -/
def BaseTextItem.textBaseOf : BaseTextItem → Option TextItemBase
  | .based _ base => some (base.getD {})
  | .code _ | .notSet => none

/-- The fields of a text item, in its base or inline. -/
def BaseTextItem.fields : BaseTextItem → Option TextItemBase
  | .code item => some item
  | item => item.textBaseOf

def BaseTextItem.prov (item : BaseTextItem) : List ProvenanceItem :=
  (item.fields.map TextItemBase.prov).getD []

def BaseTextItem.source (item : BaseTextItem) : List SourceType :=
  (item.fields.map TextItemBase.source).getD []

/-! ### Boxes -/

/-- A box measured downward from the top edge of its page. -/
structure TopDownBox where
  left : ℚ
  top : ℚ
  right : ℚ
  bottom : ℚ
  left_le : left ≤ right
  top_le : top ≤ bottom
  deriving DecidableEq

def TopDownBox.height (box : TopDownBox) : ℚ :=
  box.bottom - box.top

def TopDownBox.width (box : TopDownBox) : ℚ :=
  box.right - box.left

/-- `top_down_box`. -/
def topDownBox (box : BoundingBox) (pageHeight : ℚ) : TopDownBox :=
  if box.coordOrigin = .bottomLeft then
    { left := min box.l box.r
      top := pageHeight - max box.t box.b
      right := max box.l box.r
      bottom := pageHeight - min box.t box.b
      left_le := min_le_max
      top_le := sub_le_sub_left min_le_max pageHeight }
  else
    { left := min box.l box.r
      top := min box.t box.b
      right := max box.l box.r
      bottom := max box.t box.b
      left_le := min_le_max
      top_le := min_le_max }

/-- `grow`. -/
def grow (box : Option TopDownBox) (other : TopDownBox) : TopDownBox :=
  match box with
  | none => other
  | some box =>
    { left := min box.left other.left
      top := min box.top other.top
      right := max box.right other.right
      bottom := max box.bottom other.bottom
      left_le := (min_le_left _ _).trans (box.left_le.trans (le_max_left _ _))
      top_le := (min_le_left _ _).trans (box.top_le.trans (le_max_left _ _)) }

/-! ### Placements -/

/-- `first_page_of`: the lowest page that provenance names, zero when it names none. -/
def firstPageOf (prov : List ProvenanceItem) : ℤ :=
  prov.foldl (fun page entry =>
    if 0 < entry.pageNo ∧ (page = 0 ∨ entry.pageNo < page) then entry.pageNo else page) 0

/-- The heights of the pages that have one. -/
abbrev PageHeights := ℤ → Option ℚ

/-- The provenance of every item of the arenas that has some. -/
def Arenas.provs (arenas : Arenas) : List ProvenanceItem :=
  arenas.texts.flatMap BaseTextItem.prov ++ arenas.tables.flatMap FloatItem.prov ++
    arenas.pictures.flatMap FloatItem.prov

/-- `note_extent`: how far down the boxes of a page reach. -/
def noteExtent (prov : List ProvenanceItem) (page : ℤ) : ℚ :=
  prov.foldl (fun extent entry =>
    match entry.bbox with
    | some bbox =>
      if 0 < entry.pageNo ∧ entry.pageNo = page then max (max extent bbox.t) bbox.b else extent
    | none => extent) 0

/-- `document_page_heights`: the height a page states, else the extent of its boxes. -/
def documentPageHeights (document : Document) : PageHeights := fun page =>
  let stated := (document.pages.lookup page).filter fun item => 0 < item.height
  match stated with
  | some item => some item.height
  | none =>
    let extent := noteExtent document.provs page
    if 0 < extent then some extent else none

/-- The page an item is on, and the union of its boxes there. -/
structure ItemPlacement where
  page : ℤ
  box : TopDownBox
  page_pos : 0 < page
  deriving DecidableEq

/-- `union_on_page`: a box without area does not count. -/
def unionOnPage (prov : List ProvenanceItem) (page : ℤ) (pageHeight : ℚ) : Option TopDownBox :=
  prov.foldl (fun union entry =>
    match entry.bbox with
    | some bbox =>
      let candidate := topDownBox bbox pageHeight
      if entry.pageNo ≠ page ∨ candidate.width ≤ 0 ∨ candidate.height ≤ 0 then union
      else some (grow union candidate)
    | none => union) none

/-- `placement_of`. -/
def placementOf (prov : List ProvenanceItem) (heights : PageHeights) : Option ItemPlacement :=
  if hpage : 0 < firstPageOf prov then
    (heights (firstPageOf prov)).bind fun height =>
      (unionOnPage prov (firstPageOf prov) height).map fun box => ⟨firstPageOf prov, box, hpage⟩
  else none

/-- `arena_slot`: the arena and the index that a reference names. -/
def arenaSlot (ref : String) : Option (List Char × ℕ) :=
  match ref.toList with
  | '#' :: '/' :: rest =>
    let arena := rest.takeWhile (· ≠ '/')
    match rest.drop arena.length with
    | _ :: digits =>
      match fromChars digits with
      | some index => if index < 0 then none else some (arena, index.toNat)
      | none => none
    | [] => none
  | _ => none

/-- What a reference leads to. -/
inductive Target where
  | text (item : BaseTextItem)
  | table (item : FloatItem)
  | picture (item : FloatItem)
  | group (item : GroupItem)

/-- The item a reference names, where its slot is there. -/
def Arenas.target (arenas : Arenas) (ref : String) : Option Target :=
  (arenaSlot ref).bind fun (arena, index) =>
    if arena = "texts".toList then arenas.texts[index]?.map .text
    else if arena = "tables".toList then arenas.tables[index]?.map .table
    else if arena = "pictures".toList then arenas.pictures[index]?.map .picture
    else if arena = "groups".toList then arenas.groups[index]?.map .group
    else none

/-- A group deeper than this is not looked into. -/
def kGroupDepth : ℕ := 17

/-- The placement of a member taken into that of its group. -/
def joinPlacement (placement : Option ItemPlacement) (member : ItemPlacement) : ItemPlacement :=
  match placement with
  | none => member
  | some placement =>
    if member.page < placement.page then member
    else if member.page = placement.page then
      { placement with box := grow (some placement.box) member.box }
    else placement

/-- `group_placement`, with the levels that are left. -/
def Arenas.groupPlacement (arenas : Arenas) (heights : PageHeights) :
    ℕ → GroupItem → Option ItemPlacement
  | 0, _ => none
  | levels + 1, group =>
    group.children.foldl (fun placement child =>
      let member := match arenas.target child.ref with
        | some (.group item) => arenas.groupPlacement heights levels item
        | some (.text item) => item.fields.bind fun fields => placementOf fields.prov heights
        | some (.table item) => placementOf item.prov heights
        | some (.picture item) => placementOf item.prov heights
        | none => none
      match member with
      | some member => some (joinPlacement placement member)
      | none => placement) none

/-- `item_placement`. -/
def Arenas.itemPlacement (arenas : Arenas) (heights : PageHeights) (ref : String) :
    Option ItemPlacement :=
  match arenas.target ref with
  | some (.group item) => arenas.groupPlacement heights kGroupDepth item
  | some (.text item) => item.fields.bind fun fields => placementOf fields.prov heights
  | some (.table item) => placementOf item.prov heights
  | some (.picture item) => placementOf item.prov heights
  | none => none

/-- `item_label`. -/
def Arenas.itemLabel (arenas : Arenas) (ref : String) : DocItemLabel :=
  match arenas.target ref with
  | some (.text item) => (item.fields.map TextItemBase.label).getD .unspecified
  | some (.table _) => .table
  | some (.picture _) => .picture
  | some (.group _) | none => .unspecified

/-! ### Producers -/

/-- The names of the collectors that the items of the arenas name. -/
def Arenas.collectors (arenas : Arenas) : List String :=
  let sources := arenas.texts.flatMap BaseTextItem.source ++
    arenas.tables.flatMap FloatItem.source ++ arenas.pictures.flatMap FloatItem.source
  sources.filterMap SourceType.collector

/-- `produced_only_by`. -/
def producedOnlyBy (arenas : Arenas) (collectors : List String) : Bool :=
  !arenas.collectors.isEmpty && arenas.collectors.all (· ∈ collectors)

end GRParse.Layout
