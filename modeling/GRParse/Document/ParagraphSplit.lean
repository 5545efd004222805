import GRParse.Document.ItemJoin
import GRParse.Layout.Geometry
import GRParse.Lib.Stretches

/-!
# Splitting a text item

`split_text_item` cuts the text of an item at byte offsets.  The item keeps the first piece, and each
further piece becomes a new item at the end of the arena, with a strip of the provenance boxes and the
spans that start in it.  The references to the new items go into the children list that holds the
item, right behind it.

A field that is absent reads as its default here, and making it by an accessor changes nothing.
Coordinates are exact.
-/

namespace GRParse.Splitting

open Containers Protobuf Layout Utf8 Stretches
open Joining (IntSpan InlineSpan)
open Hyphenation.Bytes (trimLeft trimRight)

/-! ### Documents -/

structure ProvenanceItem extends Layout.ProvenanceItem where
  charspan : Option IntSpan := none
  deriving DecidableEq

/-- The fields of a text item that a split reads and writes. -/
structure TextItemBase where
  selfRef : String := ""
  parent : RefItem := ⟨""⟩
  children : List RefItem := []
  contentLayer : ContentLayer := .unspecified
  label : DocItemLabel := .unspecified
  prov : List ProvenanceItem := []
  orig : List UInt8 := []
  text : List UInt8 := []
  source : List SourceType := []
  spans : List InlineSpan := []
  rest : Message := .done
  deriving DecidableEq

/-- A code item, which carries its fields inline; a table, a picture, or an item of a form. -/
structure NodeItem where
  selfRef : String := ""
  children : List RefItem := []
  prov : List ProvenanceItem := []
  rest : Message := .done
  deriving DecidableEq

/-- A slot of the text arena. -/
inductive BaseTextItem where
  | notSet
  | based (kind : BasedKind) (base : TextItemBase) (rest : Message)
  | code (item : NodeItem)
  deriving DecidableEq

structure Document where
  texts : List BaseTextItem := []
  tables : List NodeItem := []
  pictures : List NodeItem := []
  keyValueItems : List NodeItem := []
  formItems : List NodeItem := []
  fieldRegions : List NodeItem := []
  fieldItems : List NodeItem := []
  groups : List NodeItem := []
  body : NodeItem := {}
  furniture : NodeItem := {}
  pages : Map ℤ Layout.PageItem := ∅
  rest : Message := .done

/-- `mutable_text_base_of`. -/
def BaseTextItem.textBaseOf : BaseTextItem → Option TextItemBase
  | .based _ base _ => some base
  | .code _ | .notSet => none

def BaseTextItem.modifyBase (f : TextItemBase → TextItemBase) : BaseTextItem → BaseTextItem
  | .based kind base rest => .based kind (f base) rest
  | item => item

/-- The reference an item goes by. -/
def BaseTextItem.selfRef : BaseTextItem → Option String
  | .based _ base _ => some base.selfRef
  | .code item => some item.selfRef
  | .notSet => none

/-- Every text item goes by its place in the arena. -/
def Document.Positional (document : Document) : Prop :=
  ∀ (index : ℕ) (item : BaseTextItem), document.texts[index]? = some item →
    ∀ ref ∈ item.selfRef, ref = slotRef kTexts index

/-- What the geometry of a document reads of a slot. -/
def BaseTextItem.layout : BaseTextItem → Layout.BaseTextItem
  | .notSet => .notSet
  | .based kind base _ =>
    .based kind (some { prov := base.prov.map ProvenanceItem.toProvenanceItem })
  | .code item => .code { prov := item.prov.map ProvenanceItem.toProvenanceItem }

def NodeItem.layout (item : NodeItem) : Layout.FloatItem where
  prov := item.prov.map ProvenanceItem.toProvenanceItem

/-- `document_page_heights`. -/
def Document.pageHeights (document : Document) : PageHeights :=
  documentPageHeights
    { texts := document.texts.map BaseTextItem.layout
      tables := document.tables.map NodeItem.layout
      pictures := document.pictures.map NodeItem.layout
      pages := document.pages }

/-! ### Children lists -/

/-- What has a children list. -/
inductive Holder where
  | text (index : ℕ)
  | table (index : ℕ)
  | picture (index : ℕ)
  | keyValueItem (index : ℕ)
  | formItem (index : ℕ)
  | fieldRegion (index : ℕ)
  | fieldItem (index : ℕ)
  | group (index : ℕ)
  | body
  | furniture
  deriving DecidableEq

def BaseTextItem.children : BaseTextItem → List RefItem
  | .based _ base _ => base.children
  | .code item => item.children
  | .notSet => []

def NodeItem.modifyChildren (f : List RefItem → List RefItem) (item : NodeItem) : NodeItem :=
  { item with children := f item.children }

def BaseTextItem.modifyChildren (f : List RefItem → List RefItem) : BaseTextItem → BaseTextItem
  | .based kind base rest => .based kind { base with children := f base.children } rest
  | .code item => .code (item.modifyChildren f)
  | .notSet => .notSet

/-- The children list of a slot of an arena. -/
def childrenAt (items : List NodeItem) (index : ℕ) : List RefItem :=
  (items[index]?.map NodeItem.children).getD []

def Document.children (document : Document) : Holder → List RefItem
  | .text index => (document.texts[index]?.map BaseTextItem.children).getD []
  | .table index => childrenAt document.tables index
  | .picture index => childrenAt document.pictures index
  | .keyValueItem index => childrenAt document.keyValueItems index
  | .formItem index => childrenAt document.formItems index
  | .fieldRegion index => childrenAt document.fieldRegions index
  | .fieldItem index => childrenAt document.fieldItems index
  | .group index => childrenAt document.groups index
  | .body => document.body.children
  | .furniture => document.furniture.children

def Document.modifyChildren (document : Document) (f : List RefItem → List RefItem) :
    Holder → Document
  | .text index => { document with texts := document.texts.modify index (·.modifyChildren f) }
  | .table index => { document with tables := document.tables.modify index (·.modifyChildren f) }
  | .picture index =>
    { document with pictures := document.pictures.modify index (·.modifyChildren f) }
  | .keyValueItem index =>
    { document with keyValueItems := document.keyValueItems.modify index (·.modifyChildren f) }
  | .formItem index =>
    { document with formItems := document.formItems.modify index (·.modifyChildren f) }
  | .fieldRegion index =>
    { document with fieldRegions := document.fieldRegions.modify index (·.modifyChildren f) }
  | .fieldItem index =>
    { document with fieldItems := document.fieldItems.modify index (·.modifyChildren f) }
  | .group index => { document with groups := document.groups.modify index (·.modifyChildren f) }
  | .body => { document with body := document.body.modifyChildren f }
  | .furniture => { document with furniture := document.furniture.modifyChildren f }

/-- `index_after`: the index behind a prefix, in at most nine digits. -/
def indexAfter (ref start : String) : Option ℕ :=
  if start.toList.isPrefixOf ref.toList then
    let digits := ref.toList.drop start.length
    if 9 < digits.length then none else ofDigits digits
  else none

/-- `item_children`: the text, table or picture that a parent names. -/
def Document.itemChildren (document : Document) (parent : String) : Option Holder :=
  match (indexAfter parent kTexts).filter (· < document.texts.length) with
  | some index =>
    if document.texts[index]? = some .notSet then none else some (.text index)
  | none =>
    match (indexAfter parent kTables).filter (· < document.tables.length) with
    | some index => some (.table index)
    | none =>
      ((indexAfter parent kPictures).filter (· < document.pictures.length)).map Holder.picture

/-- The children lists that are searched, in their order. -/
def Document.searched (document : Document) (parent : String) : List Holder :=
  (document.itemChildren parent).toList ++
    .body :: .furniture :: (List.range document.groups.length).map Holder.group

/-- `children_holding`: the children list that names a reference, and the position there. -/
def Document.childrenHolding (document : Document) (ref parent : String) : Option (Holder × ℕ) :=
  (document.searched parent).findSome? fun holder =>
    ((document.children holder).findIdx? fun child => child.ref = ref).map (holder, ·)

/-! ### Pieces -/

/-- `codepoints`. -/
def codepoints (text : List UInt8) : ℕ :=
  text.countP startsChar

/-- `trimmed`. -/
def trimmed (text : List UInt8) : List UInt8 :=
  trimRight (trimLeft text)

/-- The offsets at which a text is cut: those inside the text, each behind the one before. -/
def cutsOf (size : ℕ) (offsets : List ℕ) : List ℕ :=
  offsets.foldl (fun cuts offset =>
    if 0 < offset ∧ offset < size ∧ cuts.getLast?.all (· < offset) then cuts ++ [offset] else cuts)
    []

/-- `strip_of`: the part of a box between two shares of its height. -/
def stripOf (box : BoundingBox) (pageHeight startShare endShare : ℚ) : BoundingBox :=
  if pageHeight ≤ 0 ∧ box.coordOrigin = .bottomLeft then box
  else
    let flipped := topDownBox box pageHeight
    let top := flipped.top + flipped.height * startShare
    let bottom := flipped.top + flipped.height * endShare
    if box.coordOrigin = .bottomLeft then
      { box with t := pageHeight - top, b := pageHeight - bottom }
    else { box with t := top, b := bottom }

/-- What a piece takes of a provenance entry. -/
def stripEntry (heights : PageHeights) (startShare endShare : ℚ) (slicePoints : ℕ)
    (entry : ProvenanceItem) : ProvenanceItem where
  pageNo := entry.pageNo
  bbox := entry.bbox.map fun box =>
    stripOf box ((heights entry.pageNo).getD 0) startShare endShare
  charspan := entry.charspan.map fun _ => ⟨0, slicePoints⟩

/-- A span, counted from the start of a piece and kept inside it. -/
def moveSpan (shift slicePoints : ℤ) (span : InlineSpan) : InlineSpan :=
  { span with
    range := ⟨max (span.range.start - shift) 0, max 0 (min (span.range.stop - shift) slicePoints)⟩ }

/-- Where a span starts, in the stretches between the cuts. -/
def spanStart (span : InlineSpan) : ℕ :=
  (max 0 span.range.start).toNat

/-- What an item becomes as the piece of a text in a stretch of bytes. -/
def fillPiece (heights : PageHeights) (pristine : TextItemBase) (stretch : ℕ × ℕ)
    (target : TextItemBase) : TextItemBase :=
  let text := pristine.text
  let stretchText := slice text stretch
  let sliceText := trimmed stretchText
  let startPoint := codepoints (text.take stretch.1)
  let endPoint := codepoints (text.take stretch.2)
  let total : ℚ := (max (codepoints text) 1 : ℕ)
  let sliceStart := codepoints (text.take
    (if sliceText = [] then stretch.1
    else stretch.1 + (stretchText.length - (trimLeft stretchText).length)))
  let slicePoints := codepoints sliceText
  { target with
    text := sliceText
    orig := if pristine.orig = [] then target.orig else sliceText
    prov := target.prov ++
      pristine.prov.map (stripEntry heights (startPoint / total) (endPoint / total) slicePoints)
    spans := target.spans ++
      (pristine.spans.filter fun span => Within (spanStart span) (startPoint, endPoint)).map
        (moveSpan sliceStart slicePoints) }

/-- A document after some pieces, and the references to the new items. -/
structure Progress where
  document : Document
  newRefs : List String

/-- The body of the loop: the piece of a stretch, and its number. -/
def splitPiece (heights : PageHeights) (pristine : TextItemBase) (arenaIndex : ℕ)
    (progress : Progress) : (ℕ × ℕ) × ℕ → Progress
  | (stretch, 0) =>
    { progress with
      document := { progress.document with
        texts := progress.document.texts.modify arenaIndex (·.modifyBase fun base =>
          fillPiece heights pristine stretch { base with prov := [], spans := [] }) } }
  | (stretch, _ + 1) =>
    let ref := slotRef kTexts progress.document.texts.length
    let target : TextItemBase :=
      { selfRef := ref
        parent := pristine.parent
        contentLayer := pristine.contentLayer
        label := pristine.label
        source := pristine.source }
    { document := { progress.document with
        texts := progress.document.texts ++
          [.based .text (fillPiece heights pristine stretch target) .done] }
      newRefs := progress.newRefs ++ [ref] }

/-! ### New references -/

/-- `SwapElements`. -/
def swapElements {α : Type} (list : List α) (i j : ℕ) : List α :=
  match list[i]?, list[j]? with
  | some first, some second => (list.set i second).set j first
  | _, _ => list

/-- The loop that rotates the entry in a slot down to another one. -/
def rotateTo {α : Type} (target : ℕ) : ℕ → List α → List α
  | 0, list => list
  | slot + 1, list =>
    if target < slot + 1 then rotateTo target slot (swapElements list (slot + 1) slot) else list

/-- The loop that inserts the new references behind a position. -/
def insertRefs (children : List RefItem) (position : ℕ) (newRefs : List String) : List RefItem :=
  newRefs.zipIdx.foldl (fun children (ref, index) =>
    rotateTo (position + 1 + index) children.length (children ++ [⟨ref⟩])) children

/-- `split_text_item`. -/
def splitTextItem (document : Document) (arenaIndex : ℕ) (offsets : List ℕ) :
    Document × List String :=
  match document.texts[arenaIndex]?.bind BaseTextItem.textBaseOf with
  | none => (document, [])
  | some pristine =>
    let cuts := cutsOf pristine.text.length offsets
    if cuts = [] then (document, [])
    else
      let selfRef := if pristine.selfRef = "" then slotRef kTexts arenaIndex else pristine.selfRef
      let stretches := between (0 :: cuts ++ [pristine.text.length])
      let split := stretches.zipIdx.foldl
        (splitPiece document.pageHeights pristine arenaIndex) ⟨document, []⟩
      match split.document.childrenHolding selfRef pristine.parent.ref with
      | none => (split.document, split.newRefs)
      | some (holder, position) =>
        (split.document.modifyChildren (insertRefs · position split.newRefs) holder, split.newRefs)

end GRParse.Splitting
