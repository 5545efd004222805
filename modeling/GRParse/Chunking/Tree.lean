import Mathlib.Algebra.Order.Ring.Rat
import Mathlib.Data.Finset.Basic

/-!
# The document the chunker walks

The chunker reads a document through references: the roots of its two trees, and the slots of
its arenas of groups, texts, tables and pictures.  A reference may name nothing, and several
may name the same slot.
-/

namespace GRParse.Chunking

/-! ### Items -/

inductive ContentLayer where
  | unspecified
  | body
  | furniture
  | background
  | invisible
  | notes
  deriving DecidableEq

/-- Only the body layer is chunked; a layer that is not specified counts as body. -/
def excluded (layer : ContentLayer) : Bool :=
  layer ≠ .body && layer ≠ .unspecified

/-- The labels of groups that the chunker tells apart. -/
inductive GroupLabel where
  | list
  | orderedList
  | other
  deriving DecidableEq

/-- A slot of the group arena, or the root of a tree. -/
structure GroupItem where
  label : GroupLabel := .other
  layer : ContentLayer := .unspecified
  children : List String := []
  deriving DecidableEq

def listGroup (group : GroupItem) : Bool :=
  group.label = .list || group.label = .orderedList

/-- The fields that are folded into a chunk whatever arena an item lives in: the pages of its
provenance and the confidences its collectors report. -/
structure ItemView where
  prov : List ℤ := []
  source : List ℚ := []
  deriving DecidableEq

/-- What the kinds of text items have in common.  The language is the tag the item records, if
it is well formed. -/
structure TextItemBase where
  text : List UInt8 := []
  layer : ContentLayer := .unspecified
  children : List String := []
  view : ItemView := {}
  language : Option String := none
  deriving DecidableEq

/-- A slot of the text arena. -/
inductive BaseTextItem where
  | notSet
  | title (base : TextItemBase)
  | sectionHeader (level : ℤ) (base : TextItemBase)
  | text (base : TextItemBase)
  | formula (base : TextItemBase)
  | other (base : TextItemBase)
  | code (item : TextItemBase) (captions footnotes : List String)
  deriving DecidableEq

/-- `text_base`: the base of an item; a code item has none. -/
def textBase : BaseTextItem → Option TextItemBase
  | .title base | .sectionHeader _ base | .text base | .formula base | .other base => some base
  | .notSet | .code .. => none

/-- The fields of an item, a code item's included. -/
def fields : BaseTextItem → Option TextItemBase
  | .code item .. => some item
  | item => textBase item

def textOf (item : BaseTextItem) : List UInt8 :=
  (fields item).elim [] (·.text)

/-- A slot of the table arena. -/
structure TableItem (Data : Type) where
  layer : ContentLayer := .unspecified
  view : ItemView := {}
  captions : List String := []
  footnotes : List String := []
  data : Data

/-- A slot of the picture arena. -/
structure PictureItem where
  layer : ContentLayer := .unspecified
  view : ItemView := {}
  captions : List String := []
  footnotes : List String := []
  deriving DecidableEq

/-- A document.  The language is the one it declares, if that is well formed. -/
structure Document (Data : Type) where
  body : GroupItem := {}
  furniture : GroupItem := {}
  groups : List GroupItem := []
  texts : List BaseTextItem := []
  tables : List (TableItem Data) := []
  pictures : List PictureItem := []
  language : Option String := none

/-! ### References -/

/-- The arenas that the chunker reads. -/
inductive ArenaRef where
  | text (index : ℕ)
  | table (index : ℕ)
  | picture (index : ℕ)
  | group (index : ℕ)
  | unknown
  deriving DecidableEq

/-- The index behind a prefix: one to nine digits. -/
def parseIndex (digits : List Char) : Option ℕ :=
  if digits.isEmpty || digits.length > 9 || !digits.all Char.isDigit then none
  else some (Nat.ofDigitChars 10 digits 0)

/-- `parse_ref`.  The other arenas of a document are unknown to the chunker. -/
def parseRef (ref : String) : ArenaRef :=
  let under (start : String) (arena : ℕ → ArenaRef) (otherwise : ArenaRef) : ArenaRef :=
    if start.toList.isPrefixOf ref.toList then
      (parseIndex (ref.toList.drop start.toList.length)).elim .unknown arena
    else otherwise
  under "#/texts/" .text <| under "#/tables/" .table <| under "#/pictures/" .picture <|
    under "#/groups/" .group .unknown

variable {Data : Type} (document : Document Data)

def groupAt (ref : String) : Option GroupItem :=
  if ref = "#/body" then some document.body
  else if ref = "#/furniture" then some document.furniture
  else
    match parseRef ref with
    | .group index => document.groups[index]?
    | _ => none

def textAt (ref : String) : Option BaseTextItem :=
  match parseRef ref with
  | .text index => document.texts[index]?
  | _ => none

def tableAt (ref : String) : Option (TableItem Data) :=
  match parseRef ref with
  | .table index => document.tables[index]?
  | _ => none

def pictureAt (ref : String) : Option PictureItem :=
  match parseRef ref with
  | .picture index => document.pictures[index]?
  | _ => none

def layerOf (ref : String) : ContentLayer :=
  match groupAt document ref, textAt document ref, tableAt document ref,
    pictureAt document ref with
  | some group, _, _, _ => group.layer
  | none, some text, _, _ => (fields text).elim .unspecified (·.layer)
  | none, none, some table, _ => table.layer
  | none, none, none, some picture => picture.layer
  | none, none, none, none => .unspecified

/-- The fields an item contributes to its chunk, and whether the item is a text. -/
def viewOf (ref : String) : Option (ItemView × Bool) :=
  match textAt document ref, tableAt document ref, pictureAt document ref with
  | some text, _, _ => (fields text).map fun base => (base.view, true)
  | none, some table, _ => some (table.view, false)
  | none, none, some picture => some (picture.view, false)
  | none, none, none => none

/-- The language of a text item: its own, else the document's. -/
def languageOf (item : BaseTextItem) : Option String :=
  ((fields item).bind (·.language)).or document.language

/-- `collect_caption_refs`: the references that tables, pictures and code items name as their
captions and footnotes. -/
def captionRefs : List String :=
  document.tables.flatMap (fun table => table.captions ++ table.footnotes) ++
    document.pictures.flatMap (fun picture => picture.captions ++ picture.footnotes) ++
    document.texts.flatMap fun
      | .code _ captions footnotes => captions ++ footnotes
      | _ => []

end GRParse.Chunking
