import GRParse.Chunking.Walk
import GRParse.Render.CanonicalDouble
import GRParse.Render.GridBudget

/-!
# What the exports read

An export walks a document from its body along references to the items of the arenas.  A reference
may name nothing, several may name one item, and nothing keeps the references of a producer from
running in a circle: every export has a set of the references that it has consumed.  Only items of
the body layer show.

Here are the fields that the exports read.
-/

namespace GRParse.Export

open Grids

/-- A text, as bytes. -/
abbrev Text := List UInt8

/-- The bytes of an ASCII text. -/
def bytes (text : String) : Text :=
  text.toList.map fun c => .ofNat c.toNat

/-! ### Items -/

/-- Where an item was found. -/
structure ProvenanceItem where
  pageNo : ℤ := 0
  deriving DecidableEq

/-- The labels of groups that the exports tell apart. -/
inductive GroupLabel where
  | list
  | orderedList
  | inline
  | other
  deriving DecidableEq

/-- A slot of the group arena, or the root of a tree. -/
structure GroupItem where
  label : GroupLabel := .other
  contentLayer : ContentLayer := .unspecified
  children : List String := []
  deriving DecidableEq

/-- The labels of texts that the exports tell apart. -/
inductive DocItemLabel where
  | footnote
  | reference
  | caption
  | other
  deriving DecidableEq

/-- What the kinds of text items have in common. -/
structure TextItemBase where
  text : Text := []
  contentLayer : ContentLayer := .unspecified
  label : DocItemLabel := .other
  prov : List ProvenanceItem := []
  children : List String := []
  hyperlink : Option Text := none
  deriving DecidableEq

/-- The language of a code item: unset, the two that are spelled in full, or another one by the name
that is left of the enumeration's. -/
inductive CodeLanguageLabel where
  | unspecified
  | unknown
  | cPlusPlus
  | cSharp
  | other (name : Text)
  deriving DecidableEq

structure CodeItem where
  text : Text := []
  contentLayer : ContentLayer := .unspecified
  prov : List ProvenanceItem := []
  children : List String := []
  captions : List String := []
  footnotes : List String := []
  codeLanguage : CodeLanguageLabel := .unspecified
  codeLanguageRaw : Option Text := none
  deriving DecidableEq

/-- A slot of the text arena. -/
inductive BaseTextItem where
  | notSet
  | title (base : TextItemBase)
  | sectionHeader (base : TextItemBase) (level : ℤ)
  | listItem (base : TextItemBase) (enumerated : Bool)
  | code (code : CodeItem)
  | formula (base : TextItemBase)
  | text (base : TextItemBase)
  | fieldHeading (base : TextItemBase) (level : ℤ)
  | fieldValue (base : TextItemBase)
  deriving DecidableEq

/-- `text_base`. -/
def textBase : BaseTextItem → Option TextItemBase
  | .title base | .sectionHeader base _ | .listItem base _ | .formula base | .text base
  | .fieldHeading base _ | .fieldValue base => some base
  | .code _ | .notSet => none

/-- A slot of the table arena. -/
structure TableItem where
  contentLayer : ContentLayer := .unspecified
  prov : List ProvenanceItem := []
  children : List String := []
  captions : List String := []
  footnotes : List String := []
  data : TableData := {}

/-- An image of a picture or a page. -/
structure ImageRef where
  mimetype : Text := []
  uri : Text := []
  width : Render.Double := .zero false
  height : Render.Double := .zero false

/-- A slot of the picture arena.  The fields of its metadata and annotations are those that describe
it in words. -/
structure PictureItem where
  selfRef : Text := []
  contentLayer : ContentLayer := .unspecified
  prov : List ProvenanceItem := []
  children : List String := []
  captions : List String := []
  footnotes : List String := []
  image : Option ImageRef := none
  metaDescription : Option Text := none
  annotationDescriptions : List (Option Text) := []

/-- A document.  A field region or a field item is here the list of its children. -/
structure Document where
  name : Text := []
  body : GroupItem := {}
  texts : List BaseTextItem := []
  tables : List TableItem := []
  pictures : List PictureItem := []
  groups : List GroupItem := []
  fieldRegions : List (List String) := []
  fieldItems : List (List String) := []
  pages : List (ℤ × Option ImageRef) := []

/-- `excluded_layer`. -/
def excludedLayer (layer : ContentLayer) : Bool :=
  layer ≠ .body && layer ≠ .unspecified

/-- `heading_rank`. -/
def headingRank (level : ℤ) : ℤ :=
  min (max level 1 + 1) 6

/-- `picture_description`. -/
def pictureDescription (picture : PictureItem) : Text :=
  (picture.metaDescription.or (picture.annotationDescriptions.find? (·.isSome)).join).getD []

/-! ### References -/

inductive ArenaRef where
  | text (index : ℕ)
  | table (index : ℕ)
  | picture (index : ℕ)
  | group (index : ℕ)
  | keyValue (index : ℕ)
  | form (index : ℕ)
  | fieldRegion (index : ℕ)
  | fieldItem (index : ℕ)
  | unknown
  deriving DecidableEq

def kArenas : List (String × (ℕ → ArenaRef)) :=
  [("#/texts/", .text), ("#/tables/", .table), ("#/pictures/", .picture), ("#/groups/", .group),
    ("#/key_value_items/", .keyValue), ("#/form_items/", .form),
    ("#/field_regions/", .fieldRegion), ("#/field_items/", .fieldItem)]

/-- `parse_ref`. -/
def parseRef (ref : String) : ArenaRef :=
  match kArenas.find? fun arena => arena.1.toList.isPrefixOf ref.toList with
  | none => .unknown
  | some (start, kind) =>
    (Chunking.parseIndex (ref.toList.drop start.toList.length)).elim .unknown kind

namespace Document

variable (document : Document)

/-- The text that a reference names. -/
def textAt (ref : String) : Option BaseTextItem :=
  match parseRef ref with
  | .text index => document.texts[index]?
  | _ => none

/-- The group that a reference names. -/
def groupAt (ref : String) : Option GroupItem :=
  match parseRef ref with
  | .group index => document.groups[index]?
  | _ => none

/-- The references that the walk of an export goes on to from a group or a field. -/
def next (ref : String) : List String :=
  match parseRef ref with
  | .group index => (document.groups[index]?.map GroupItem.children).getD []
  | .fieldRegion index => document.fieldRegions[index]?.getD []
  | .fieldItem index => document.fieldItems[index]?.getD []
  | _ => []

/-- All references that are children of a group or a field. -/
def listed : List String :=
  document.body.children ++ document.groups.flatMap GroupItem.children ++
    document.fieldRegions.flatten ++ document.fieldItems.flatten

/-- More than the references on a path that does not meet one twice. -/
def depth : ℕ :=
  document.listed.length + 1

/-! ### Captions -/

/-- `caption_bases`: the texts that references name, which are consumed. -/
def captionBases (captions : List String) (consumed : Finset String) :
    List TextItemBase × Finset String :=
  captions.foldl
    (fun (bases, consumed) ref =>
      match document.textAt ref with
      | none => (bases, consumed)
      | some item => (bases ++ (textBase item).toList, insert ref consumed))
    ([], consumed)

/-- `caption_texts`. -/
def captionTexts (captions : List String) (consumed : Finset String) : List Text × Finset String :=
  let (bases, consumed) := document.captionBases captions consumed
  ((bases.map TextItemBase.text).filter (!·.isEmpty), consumed)

end Document

/-- The texts with a blank between them: none behind a text that adds nothing. -/
def joined (texts : List Text) : Text :=
  texts.foldl (fun out text => (if out.isEmpty then out else out ++ [0x20]) ++ text) []

end GRParse.Export

/-!
## The cells that an export emits

A grid repeats a spanned cell at every position the cell covers.  The exports to HTML, DocLang and
the Docs API go over the positions row by row with a map of those that are covered: at a position
that is not covered, what stands there is emitted, and the positions that it spans are covered from
then on.  The spans are those that the cell claims, one at least.
-/

namespace GRParse.Export

open Grids

/-- The positions that are covered already. -/
abbrev Coverage := ℕ → ℕ → Bool

/-- How many rows a cell claims; an empty position is of one row. -/
def rowSpanOf (cell : Option TableCell) : ℕ :=
  (max (cell.elim 1 fun cell => cell.rowSpan.toInt) 1).toNat

/-- How many columns a cell claims. -/
def colSpanOf (cell : Option TableCell) : ℕ :=
  (max (cell.elim 1 fun cell => cell.colSpan.toInt) 1).toNat

/-- `mark_covered`: what a cell covers from a position on, clipped to the grid. -/
def markCovered (rows columns row col rowSpan colSpan : ℕ) (covered : Coverage) : Coverage :=
  fun r c => covered r c || (row ≤ r && r < min rows (row + rowSpan) && col ≤ c &&
    c < min columns (col + colSpan))

/-- The cells a row emits from a column on, and what is covered then. -/
def emitCells (rows columns row : ℕ) : ℕ → List (Option TableCell) → Coverage →
    List (Option TableCell) × Coverage
  | _, [], covered => ([], covered)
  | col, cell :: cells, covered =>
    if covered row col then emitCells rows columns row (col + 1) cells covered
    else
      let covered := markCovered rows columns row col (rowSpanOf cell) (colSpanOf cell) covered
      let (emitted, covered) := emitCells rows columns row (col + 1) cells covered
      (cell :: emitted, covered)

/-- The rows of cells that are emitted from a row on. -/
def emitRows (rows columns : ℕ) : ℕ → Grid → Coverage → List (List (Option TableCell))
  | _, [], _ => []
  | row, cells :: grid, covered =>
    let (emitted, covered) := emitCells rows columns row 0 cells covered
    emitted :: emitRows rows columns (row + 1) grid covered

/-- The columns of the widest row. -/
def columnsOf (grid : Grid) : ℕ :=
  grid.foldl (fun columns row => max columns row.length) 0

/-- The cells that a grid emits, row by row. -/
def emittedCells (grid : Grid) : List (List (Option TableCell)) :=
  emitRows grid.length (columnsOf grid) 0 grid fun _ _ => false

end GRParse.Export
