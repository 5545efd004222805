import GRParse.Lib.Map
import GRParse.Lib.Message

/-!
# Documents

The part of a `Document` the page events and their repair go through: the four arenas, the
two trees and the page map.  Of an item we spell out the fields these functions read; all
its other fields are a `Message`, compared and walked as a whole.  Two messages are the same
here when `MessageDifferencer::Equals` says so.
-/

namespace GRParse

open Containers Protobuf

/-- A reference to an item. -/
structure RefItem where
  ref : String
  deriving DecidableEq, Repr

/-- Where an item came from. -/
structure ProvenanceItem where
  pageNo : ℤ := 0
  rest : Message := .done
  deriving DecidableEq, Repr

/-- The layer of the page an item belongs to. -/
inductive ContentLayer where
  | unspecified
  | body
  | furniture
  | background
  | invisible
  | notes
  deriving DecidableEq, Repr

/-- What the items of all arenas carry. -/
structure NodeItem where
  selfRef : String := ""
  parent : Option RefItem := none
  children : List RefItem := []
  rest : Message := .done
  deriving DecidableEq, Repr

/-- What the items placed on pages carry. -/
structure DocItem extends NodeItem where
  prov : List ProvenanceItem := []
  contentLayer : ContentLayer := .unspecified
  deriving DecidableEq, Repr

/-- What text items carry, in their base or inline. -/
structure TextItemBase extends DocItem where
  text : String := ""
  deriving DecidableEq, Repr

/-- The text items that keep their fields in a base. -/
inductive BasedKind where
  | title
  | sectionHeader (level : ℤ)
  | listItem
  | formula
  | text
  | fieldHeading
  | fieldValue
  deriving DecidableEq, Repr

/-- A slot of the text arena: one of the kinds with a base, a code item, which carries its
fields inline, or not set. -/
inductive BaseTextItem where
  | notSet
  | based (kind : BasedKind) (base : Option TextItemBase) (rest : Message)
  | code (item : TextItemBase)
  deriving DecidableEq, Repr

/-- A slot of the table arena. -/
structure TableItem extends DocItem where
  deriving DecidableEq, Repr

/-- A slot of the picture arena. -/
structure PictureItem extends DocItem where
  deriving DecidableEq, Repr

/-- A slot of the group arena, or the root of a tree. -/
structure GroupItem extends NodeItem where
  deriving DecidableEq, Repr

/-- The metadata of a page. -/
structure PageItem where
  pageNo : ℤ := 0
  rest : Message := .done
  deriving DecidableEq, Repr

/-- The page map of a document. -/
abbrev PageMap := Map ℤ PageItem

/-- A document. -/
structure Document where
  body : Option GroupItem := none
  furniture : Option GroupItem := none
  groups : List GroupItem := []
  texts : List BaseTextItem := []
  pictures : List PictureItem := []
  tables : List TableItem := []
  pages : PageMap := ∅
  rest : Message := .done

/-- The children of a root that may be missing. -/
def rootChildren (root : Option GroupItem) : List RefItem :=
  (root.getD {}).children

/-! ### Arenas -/

/-- The items of an arena: what the overloads of `self_ref_of` and `parent_of` read off
them.  A new item, as it stands in for one to come, carries no reference. -/
class ArenaItem (Item : Type) extends Inhabited Item where
  selfRefOf : Item → String
  parentOf : Item → String
  selfRefOf_default : selfRefOf default = ""

export ArenaItem (selfRefOf parentOf selfRefOf_default)

/-- The reference to the parent of an item, empty when it has none. -/
def NodeItem.parentRef (item : NodeItem) : String :=
  (item.parent.map fun parent => parent.ref).getD ""

/-- `text_base_of`: the base of a text item, unless it is a code item or not set. -/
def BaseTextItem.textBaseOf : BaseTextItem → Option TextItemBase
  | .based _ base _ => some (base.getD {})
  | .code _ | .notSet => none

instance : ArenaItem BaseTextItem where
  default := .notSet
  selfRefOf
    | .code item => item.selfRef
    | item => match item.textBaseOf with
      | some base => base.selfRef
      | none => ""
  parentOf
    | .code item => item.parentRef
    | item => match item.textBaseOf with
      | some base => base.parentRef
      | none => ""
  selfRefOf_default := rfl

instance : ArenaItem TableItem where
  default := {}
  selfRefOf table := table.selfRef
  parentOf table := table.parentRef
  selfRefOf_default := rfl

instance : ArenaItem PictureItem where
  default := {}
  selfRefOf picture := picture.selfRef
  parentOf picture := picture.parentRef
  selfRefOf_default := rfl

instance : ArenaItem GroupItem where
  default := {}
  selfRefOf group := group.selfRef
  parentOf group := group.parentRef
  selfRefOf_default := rfl

end GRParse
