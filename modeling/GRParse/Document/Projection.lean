import GRParse.Document.References
import GRParse.Lib.Utf8
import Mathlib.Data.Finset.Sort

/-!
# Projecting a document onto its pages

`Projector` splits a document into the events of its pages.  It walks the body and then the
furniture, places what no tree reaches, and carries each group to the page of the next item
it places.
-/

namespace GRParse

open Containers

/-! ### Page events -/

/-- How a text was read. -/
inductive TextSource where
  | unspecified
  | ocr
  | digitalPdf
  deriving DecidableEq, Repr

/-- Where a text lies in the text of the document. -/
structure TextOffset where
  selfRef : String
  utfStart : ℕ
  utfEnd : ℕ
  source : TextSource
  deriving DecidableEq, Repr

/-- The event of a page. -/
structure PageData where
  pageNumber : ℤ := 0
  pageMeta : Option PageItem := none
  texts : List BaseTextItem := []
  tables : List TableItem := []
  pictures : List PictureItem := []
  textOffsets : List TextOffset := []
  bodyOrder : List RefItem := []
  groups : List GroupItem := []
  deriving DecidableEq, Repr

namespace PageData

/-- The page with a reference put into its reading order, if it belongs there. -/
def addBodyOrder (page : PageData) (ref : String) (body : Bool) : PageData :=
  if body then { page with bodyOrder := page.bodyOrder ++ [⟨ref⟩] } else page

def addText (page : PageData) (item : BaseTextItem) (offset : TextOffset) (body : Bool) :
    PageData :=
  { page with
    texts := page.texts ++ [item]
    textOffsets := page.textOffsets ++ [offset] }.addBodyOrder offset.selfRef body

def addTable (page : PageData) (table : TableItem) (body : Bool) : PageData :=
  { page with tables := page.tables ++ [table] }.addBodyOrder table.selfRef body

def addPicture (page : PageData) (picture : PictureItem) (body : Bool) : PageData :=
  { page with pictures := page.pictures ++ [picture] }.addBodyOrder picture.selfRef body

def addGroup (page : PageData) (group : GroupItem) : PageData :=
  { page with groups := page.groups ++ [group] }

end PageData

/-! ### Slots -/

/-- A slot of one of the arenas, kept by the item in it. -/
inductive Slot where
  | text (item : BaseTextItem)
  | table (item : TableItem)
  | picture (item : PictureItem)
  | group (item : GroupItem)
  deriving DecidableEq

/-- `first_page`: the first page-numbered provenance entry, zero when the item names none. -/
def firstPage (prov : List ProvenanceItem) : ℤ :=
  match prov.find? fun entry => 0 < entry.pageNo with
  | some entry => entry.pageNo
  | none => 0

structure TextView where
  selfRef : String
  text : String
  page : ℤ
  layer : ContentLayer

/-- `text_view`. -/
def textView : BaseTextItem → TextView
  | .code item => ⟨item.selfRef, item.text, firstPage item.prov, item.contentLayer⟩
  | item => match item.textBaseOf with
    | some base => ⟨base.selfRef, base.text, firstPage base.prov, base.contentLayer⟩
    | none => ⟨"", "", 0, .body⟩

/-- The reference a slot is found under. -/
def Slot.ref : Slot → String
  | .text item => (textView item).selfRef
  | .table item => item.selfRef
  | .picture item => item.selfRef
  | .group item => item.selfRef

/-- The page the item in a slot names, zero when it names none. -/
def Slot.page : Slot → ℤ
  | .text item => (textView item).page
  | .table item => firstPage item.prov
  | .picture item => firstPage item.prov
  | .group _ => 0

/-- The references a walk goes into before it goes on after a slot. -/
def Slot.children : Slot → List RefItem
  | .group item => item.children
  | .text _ | .table _ | .picture _ => []

/-- Whether an item no tree reaches belongs into the reading order of its page. -/
def Slot.layerIsBody : Slot → Bool
  | .text item => (textView item).layer == .body
  | .table _ | .picture _ | .group _ => true

/-- The slots of a document, in the order in which they are entered into `slots_`. -/
def Document.slots (document : Document) : List Slot :=
  document.texts.map .text ++ document.tables.map .table ++ document.pictures.map .picture ++
    document.groups.map .group

/-- `slots_.find`: the slot first entered under a reference. -/
def Document.slotOf (document : Document) (ref : String) : Option Slot :=
  document.slots.find? fun slot => slot.ref = ref

/-- `utf8_codepoint_count`. -/
def utf8CodepointCount (text : String) : ℕ :=
  Utf8.codepointCount text

/-! ### The projector -/

structure Projector where
  visited : Finset String := ∅
  pages : Map ℤ PageData := ∅
  pendingGroups : List GroupItem := []
  currentPage : ℤ := 1
  utfCursor : ℕ

namespace Projector

/-- The page map with something added to a page, which need not be there yet. -/
def addTo (pages : Map ℤ PageData) (page : ℤ) (add : PageData → PageData) : Map ℤ PageData :=
  pages.insert page (add ((pages.lookup page).getD {}))

/-- `settle`: the page an item lands on. -/
def settle (p : Projector) (page : ℤ) : ℤ :=
  if 0 < page then page else p.currentPage

/-- `flush_groups`. -/
def flushGroups (p : Projector) (page : ℤ) : Projector :=
  { p with
    pages := p.pendingGroups.foldl (fun pages group => addTo pages page (·.addGroup group)) p.pages
    pendingGroups := [] }

/-- What the ways to place an item share: it is visited, its page settled, the groups opened
before it are flushed onto that page, and it follows them. -/
def place (p : Projector) (ref : String) (page : ℤ) (add : PageData → PageData) : Projector :=
  let current := p.settle page
  let p := { p with visited := insert ref p.visited, currentPage := current }.flushGroups current
  { p with pages := addTo p.pages current add }

/-- `place_text`. -/
def placeText (p : Projector) (source : TextSource) (item : BaseTextItem) (body : Bool) :
    Projector :=
  let view := textView item
  let utfEnd := p.utfCursor + utf8CodepointCount view.text
  let offset : TextOffset := ⟨view.selfRef, p.utfCursor, utfEnd, source⟩
  { p.place view.selfRef view.page (·.addText item offset body) with utfCursor := utfEnd }

/-- `place_table`. -/
def placeTable (p : Projector) (table : TableItem) (body : Bool) : Projector :=
  p.place table.selfRef (firstPage table.prov) (·.addTable table body)

/-- `place_picture`. -/
def placePicture (p : Projector) (picture : PictureItem) (body : Bool) : Projector :=
  p.place picture.selfRef (firstPage picture.prov) (·.addPicture picture body)

/-- A group is visited when it is found, and goes out on the page of the next item. -/
def openGroup (p : Projector) (group : GroupItem) : Projector :=
  { p with
    visited := insert group.selfRef p.visited
    pendingGroups := p.pendingGroups ++ [group] }

/-- What is done with a slot that was not visited before. -/
def visit (p : Projector) (source : TextSource) (body : Bool) : Slot → Projector
  | .text item => p.placeText source item body
  | .table item => p.placeTable item body
  | .picture item => p.placePicture item body
  | .group item => p.openGroup item

@[simp]
theorem visited_visit (p : Projector) (source : TextSource) (body : Bool) (slot : Slot) :
  (p.visit source body slot).visited = insert slot.ref p.visited
  := by
  cases slot <;> rfl

/-- The references to slots that were not visited. -/
def unvisited (document : Document) (p : Projector) : Finset String :=
  (document.slots.map Slot.ref).toFinset \ p.visited

/-- A visit leaves less to be visited. -/
theorem card_unvisited_visit_lt {document : Document} {p : Projector} {slot : Slot}
    (source : TextSource) (body : Bool) (hslot : slot ∈ document.slots)
    (hnew : slot.ref ∉ p.visited) :
  (unvisited document (p.visit source body slot)).card < (unvisited document p).card
  := by
  apply Finset.card_lt_card
  rw [Finset.ssubset_iff_of_subset]
  · use slot.ref
    simpa [unvisited, hnew] using ⟨slot, hslot, rfl⟩
  · unfold unvisited
    rw [visited_visit]
    exact Finset.sdiff_subset_sdiff (Finset.Subset.refl _) (Finset.subset_insert _ _)

end Projector

/-- A slot found under a reference is a slot of the document that carries it. -/
theorem Document.mem_of_slotOf {document : Document} {ref : String} {slot : Slot}
    (h : document.slotOf ref = some slot) :
  slot ∈ document.slots ∧ slot.ref = ref
  := ⟨List.mem_of_find?_eq_some h, by simpa using List.find?_some h⟩

namespace Projector

/-- `walk`: the children of a group are walked before what comes after the group.  The walk
ends because a slot is visited once. -/
def walk (document : Document) (source : TextSource) (body : Bool) :
    List RefItem → Projector → Projector
  | [], p => p
  | child :: rest, p =>
    match _ : document.slotOf child.ref with
    | none => walk document source body rest p
    | some slot =>
      if _ : child.ref ∈ p.visited then walk document source body rest p
      else walk document source body (slot.children ++ rest) (p.visit source body slot)
termination_by children p => ((unvisited document p).card, children.length)
decreasing_by
  · simp [Prod.lex_def]
  · simp [Prod.lex_def]
  · have hslot := Document.mem_of_slotOf ‹_›
    left
    exact card_unvisited_visit_lt source body hslot.1 (hslot.2 ▸ ‹_›)

/-- A walk skips what it cannot find or has visited, and visits the rest. -/
theorem walk_cons (document : Document) (source : TextSource) (body : Bool) (child : RefItem)
    (rest : List RefItem) (p : Projector) :
  walk document source body (child :: rest) p =
    match document.slotOf child.ref with
    | none => walk document source body rest p
    | some slot =>
      if child.ref ∈ p.visited then walk document source body rest p
      else walk document source body (slot.children ++ rest) (p.visit source body slot)
  := by
  rw [walk]
  split <;> simp [*]

/-- What no tree reaches still belongs to its page. -/
def placeLeftover (source : TextSource) (p : Projector) (slot : Slot) : Projector :=
  if slot.ref ∈ p.visited then p else p.visit source slot.layerIsBody slot

/-- The leftovers follow what the trees reach, arena after arena. -/
def placeLeftovers (document : Document) (source : TextSource) (p : Projector) : Projector :=
  document.slots.foldl (placeLeftover source) p

/-- The three passes of `run`, and the groups that are left at their end. -/
def placeAll (document : Document) (source : TextSource) (p : Projector) : Projector :=
  let p := walk document source true (rootChildren document.body) p
  let p := walk document source false (rootChildren document.furniture) p
  let p := placeLeftovers document source p
  p.flushGroups p.currentPage

end Projector

/-- `names_a_page`. -/
def Document.namesAPage (document : Document) : Bool :=
  document.pages ≠ ∅ ∨ ∃ slot ∈ document.slots, 0 < slot.page

/-- The event of a named page: what was placed on it, under its number and the document's
metadata. -/
def Document.pageEvent (document : Document) (pages : Map ℤ PageData) (pageNo : ℤ) : PageData :=
  { (pages.lookup pageNo).getD {} with
    pageNumber := pageNo
    pageMeta := some { (document.pages.lookup pageNo).getD {} with pageNo := pageNo } }

/-- The numbers of the pages that are emitted: something was placed on them, or the document
has metadata for them. -/
def Document.namedPages (document : Document) (pages : Map ℤ PageData) : Finset ℤ :=
  pages.keys ∪ document.pages.keys.filter fun pageNo => 0 < pageNo

/-- `project_page_data`: the events of the pages in the order of their numbers, and the end of
the text. -/
def projectPageData (document : Document) (source : TextSource) (utfOffset : ℕ) :
    List PageData × ℕ :=
  if document.namesAPage then
    let p := Projector.placeAll document source { utfCursor := utfOffset }
    (((document.namedPages p.pages).sort (· ≤ ·)).map (document.pageEvent p.pages), p.utfCursor)
  else ([], utfOffset)

end GRParse
