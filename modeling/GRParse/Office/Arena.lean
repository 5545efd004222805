import GRParse.Document.References
import Mathlib

/-!
# The arena of an office document

`DocumentArena` is the document under construction: its two roots, `#/body` and
`#/furniture`, and one list of items for each kind, in which an item is named by its slot.
An item names its parent, and its parent lists it among its children; the two ends of the
link are written by different functions, each of which reads the reference on its own.

An item is here the part of it that these functions read or write, whichever arena holds it:
a group carries no provenance and a text item no children.  Labels, names, the kind of a text
item and the collector's tag are written once, and nothing in the arena reads them.
-/

namespace GRParse.Office

/-- A box on a page; `topLeft` when the origin is claimed, which it is for a box measured
from its own page. -/
structure BoundingBox where
  l : ℚ
  t : ℚ
  r : ℚ
  b : ℚ
  topLeft : Bool := false
  deriving DecidableEq, Repr

/-- Where an item shows: its page, its box there, and the characters of it that are meant. -/
structure ProvenanceItem where
  pageNo : ℤ
  bbox : Option BoundingBox := none
  charspan : ℤ × ℤ := (0, 0)
  deriving DecidableEq, Repr

/-- An item of the document. -/
structure Item where
  selfRef : String := ""
  parent : String := ""
  children : List String := []
  contentLayer : ContentLayer := .unspecified
  prov : List ProvenanceItem := []
  text : String := ""
  deriving DecidableEq, Repr

/-- The lists of items. -/
inductive Arena where
  | groups
  | texts
  | pictures
  | tables
  | fieldRegions
  | fieldItems
  deriving DecidableEq, Repr

/-- What the references to the items of an arena begin with. -/
def Arena.start : Arena → String
  | .groups => kGroups
  | .texts => kTexts
  | .pictures => kPictures
  | .tables => kTables
  | .fieldRegions => "#/field_regions/"
  | .fieldItems => "#/field_items/"

def Arena.all : List Arena := [.groups, .texts, .pictures, .tables, .fieldRegions, .fieldItems]

theorem Arena.mem_all (arena : Arena) :
  arena ∈ Arena.all
  := by
  cases arena <;> simp [Arena.all]

/-- A node of the document: a root, or a slot of an arena. -/
inductive Place where
  | body
  | furniture
  | slot (arena : Arena) (index : ℕ)
  deriving DecidableEq, Repr

/-- The reference to a node. -/
def Place.ref : Place → String
  | .body => "#/body"
  | .furniture => "#/furniture"
  | .slot arena index => slotRef arena.start index

/-- The document of a `DocumentArena`. -/
structure Document where
  body : Item := { selfRef := "#/body", contentLayer := .body }
  furniture : Item := { selfRef := "#/furniture", contentLayer := .furniture }
  items : Arena → List Item := fun _ => []

namespace Document

/-- The item at a node, when there is one. -/
def item (d : Document) : Place → Option Item
  | .body => some d.body
  | .furniture => some d.furniture
  | .slot arena index => (d.items arena)[index]?

/-- The item at a node, changed in place. -/
def modify (d : Document) (place : Place) (f : Item → Item) : Document :=
  match place with
  | .body => { d with body := f d.body }
  | .furniture => { d with furniture := f d.furniture }
  | .slot arena index =>
    { d with items := Function.update d.items arena ((d.items arena).modify index f) }

/-- `add_groups` and its like: an item behind the last one of its arena. -/
def add (d : Document) (arena : Arena) (item : Item) : Document :=
  { d with items := Function.update d.items arena (d.items arena ++ [item]) }

/-- How many items the arenas hold. -/
def size (d : Document) : ℕ :=
  (Arena.all.map fun arena => (d.items arena).length).sum

end Document

/-! ### Reading references -/

/-- `std::isspace` in the C locale. -/
def isSpace (c : Char) : Bool :=
  c == ' ' || ('\t' ≤ c && c ≤ '\r')

/-- The digits a text begins with, read as a number: zero when it begins with none. -/
def leadingNumber (text : List Char) : ℤ :=
  Nat.ofDigitChars 10 (text.takeWhile Char.isDigit) 0

/-- `std::atoi`: blanks, a sign and digits; what follows them is ignored. -/
def atoi (text : List Char) : ℤ :=
  match text.dropWhile isSpace with
  | '-' :: digits => -leadingNumber digits
  | '+' :: digits => leadingNumber digits
  | digits => leadingNumber digits

/-- `index_in_arena`: the index a reference names in an arena, or -1 when it names another. -/
def indexInArena (ref : String) (arena : Arena) : ℤ :=
  if arena.start.toList.isPrefixOf ref.toList then
    atoi (ref.toList.drop arena.start.toList.length)
  else -1

namespace Document

/-- The slot a reference names in an arena, when the arena has it: what `picture_by_ref`,
`text_by_ref` and the other lookups test before they look at the item. -/
def slotByRef (d : Document) (arena : Arena) (ref : String) : Option ℕ :=
  let index := indexInArena ref arena
  if 0 ≤ index ∧ index < (d.items arena).length then some index.toNat else none

/-- `group_by_ref`: anything that names no group is the body. -/
def groupByRef (d : Document) (ref : String) : Place :=
  if ref = "#/body" then .body
  else if ref = "#/furniture" then .furniture
  else match d.slotByRef .groups ref with
    | some index => .slot .groups index
    | none => .body

/-! ### Linking -/

/-- Where `link_child` writes: the arenas that `link_into_item_arena` matches come first,
then the groups, then the body. -/
def linkPlace (d : Document) (parentRef : String) : Place :=
  match d.slotByRef .fieldRegions parentRef with
  | some index => .slot .fieldRegions index
  | none => match d.slotByRef .fieldItems parentRef with
    | some index => .slot .fieldItems index
    | none => match d.slotByRef .pictures parentRef with
      | some index => .slot .pictures index
      | none => match d.slotByRef .tables parentRef with
        | some index => .slot .tables index
        | none => d.groupByRef parentRef

/-- `link_child`. -/
def linkChild (d : Document) (parentRef childRef : String) : Document :=
  d.modify (d.linkPlace parentRef) fun owner =>
    { owner with children := owner.children ++ [childRef] }

/-- The reference of the next item of an arena. -/
def nextRef (d : Document) (arena : Arena) : String :=
  (Place.slot arena (d.items arena).length).ref

/-- An item is added at the end of its arena and listed by its parent. -/
def addItem (d : Document) (arena : Arena) (layer : ContentLayer) (parentRef : String) :
    Document :=
  (d.add arena
    { selfRef := d.nextRef arena, parent := parentRef, contentLayer := layer }).linkChild
      parentRef (d.nextRef arena)

/-- `add_group`. -/
def addGroup (d : Document) (parentRef : String) (layer : ContentLayer) : Document :=
  d.addItem .groups layer parentRef

/-- `add_text`. -/
def addText (d : Document) (layer : ContentLayer) (parentRef : String) : Document :=
  d.addItem .texts layer parentRef

/-- `add_picture`. -/
def addPicture (d : Document) (layer : ContentLayer) (parentRef : String) : Document :=
  d.addItem .pictures layer parentRef

/-- `add_table`. -/
def addTable (d : Document) (layer : ContentLayer) (parentRef : String) : Document :=
  d.addItem .tables layer parentRef

end Document

/-! ### Moving a child -/

/-- `SwapElements`. -/
def swapElements (children : List String) (i j : ℕ) : List String :=
  match children[i]?, children[j]? with
  | some x, some y => (children.set i y).set j x
  | _, _ => children

/-- The swaps that bring the child at `from` down to `to`, the last of them first. -/
def rotateDown (children : List String) (start : ℕ) : ℕ → List String
  | 0 => children
  | steps + 1 =>
    rotateDown (swapElements children (start + steps + 1) (start + steps)) start steps

/-- The swaps that bring the child at `start` up by so many steps. -/
def rotateUp (children : List String) (start : ℕ) : ℕ → List String
  | 0 => children
  | steps + 1 => rotateUp (swapElements children start (start + 1)) (start + 1) steps

/-- The last index at which a reference is listed; none stands for -1. -/
def lastIndex (children : List String) (ref : String) : Option ℕ :=
  children.zipIdx.foldl (fun found (child, i) => if child = ref then some i else found) none

/-- The child at `start`, rotated to `stop`. -/
def rotateTo (children : List String) (start stop : ℕ) : List String :=
  if stop = start then children
  else if stop < start then rotateDown children stop (start - stop)
  else rotateUp children start (stop - start)

/-- What `move_child_after` makes of the list of children: an anchor that is not listed, or
not named, puts the child in front. -/
def moveAfter (children : List String) (childRef afterRef : String) : List String :=
  match lastIndex children childRef with
  | none => children
  | some start =>
    match if afterRef = "" then none else lastIndex children afterRef with
    | none => rotateTo children start 0
    | some anchor => rotateTo children start (if anchor < start then anchor + 1 else anchor)

/-- `move_child_after`. -/
def Document.moveChildAfter (d : Document) (parentRef childRef afterRef : String) : Document :=
  d.modify (d.groupByRef parentRef) fun owner =>
    { owner with children := moveAfter owner.children childRef afterRef }

/-! ### Moving to the furniture -/

/-- `drop_boxes`. -/
def dropBoxes (prov : List ProvenanceItem) : List ProvenanceItem :=
  prov.map fun entry => { entry with bbox := none }

/-- A picture or a text item in the furniture layer, without its boxes. -/
def Item.furnish (item : Item) : Item :=
  { item with contentLayer := .furniture, prov := dropBoxes item.prov }

namespace Document

/-- The item `move_to_furniture` finds under a reference: a picture, a text or a group. -/
def movable (d : Document) (ref : String) : Option Place :=
  match d.slotByRef .pictures ref with
  | some index => some (.slot .pictures index)
  | none => match d.slotByRef .texts ref with
    | some index => some (.slot .texts index)
    | none => (d.slotByRef .groups ref).map (.slot .groups ·)

/-- One turn of the sweep: what becomes of the document, and the references pushed. -/
def visit (d : Document) (next : String) : Document × List String :=
  match d.movable next with
  | some (.slot .groups index) =>
    let d' := d.modify (.slot .groups index) fun group =>
      { group with contentLayer := .furniture }
    (d', ((d'.items .groups)[index]?.map Item.children).getD [])
  | some place => (d.modify place Item.furnish, [])
  | none => (d, [])

/-- The sweep over what is below the moved item; the head of `pending` is the back of the
vector.  `none` when the fuel runs out before the stack is empty. -/
def sweep : ℕ → List String → Document → Option Document
  | _, [], d => some d
  | 0, _ :: _, _ => none
  | fuel + 1, next :: pending, d =>
    sweep fuel ((d.visit next).2.reverse ++ pending) (d.visit next).1

/-- The moved item names the furniture as its parent, and is listed there instead. -/
def relink (d : Document) (place : Place) (ref : String) : Document :=
  let parent := ((d.item place).map Item.parent).getD ""
  let d := d.modify place fun item => { item with parent := "#/furniture" }
  let d := d.modify (d.groupByRef parent) fun owner =>
    { owner with children := owner.children.erase ref }
  d.linkChild "#/furniture" ref

/-- `move_to_furniture`.  The sweep is given a turn for every item of the document. -/
def moveToFurniture (d : Document) (ref : String) : Option Document :=
  match d.movable ref with
  | none => some d
  | some place =>
    let d := d.relink place ref
    d.sweep d.size [ref]

end Document

end GRParse.Office
