import GRParse.Render.LoadReferences

/-!
# Loaded documents

A document as the migration of list items sees it: the roots and eight arenas.  A node of any of them
carries its references in the fields that the migration views; a kind of node without such a field
holds none there.  What the migration does not look into is a `Message`.  A part that is not set is
read as one with nothing in it.
-/

namespace GRParse.LoadNorm

open Protobuf Traverse List

/-! ### Nodes -/

/-- The references of a node.  `cellRefs` are those of table cells. -/
structure Node where
  selfRef : String := ""
  parent : Option String := none
  children : List String := []
  comments : List String := []
  captions : List String := []
  references : List String := []
  footnotes : List String := []
  cellRefs : List (Option String) := []
  deriving DecidableEq

/-- All references of a node. -/
def Node.refs (node : Node) : List String :=
  node.selfRef :: (node.parent.toList ++ node.children ++ node.comments ++ node.captions ++
    node.references ++ node.footnotes ++ node.cellRefs.reduceOption)

/-- The labels of groups, of which only that of a list matters here. -/
inductive GroupLabel where
  | list
  | other (value : ℤ)
  deriving DecidableEq

/-- The labels of items, of which only that of a list item matters here. -/
inductive DocItemLabel where
  | listItem
  | other (value : ℤ)
  deriving DecidableEq

/-- What a text item is. -/
inductive TextCase where
  | notSet
  | title
  | sectionHeader
  | fieldHeading
  | fieldValue
  | listItem
  | code
  | formula
  | text
  deriving DecidableEq

/-- What a group carries besides its references. -/
structure GroupFields where
  label : GroupLabel := .other 0
  contentLayer : ContentLayer := .unspecified
  name : Option String := none
  rest : Message := .done
  deriving DecidableEq

/-- What a text item carries besides its references. -/
structure TextFields where
  itemCase : TextCase := .notSet
  label : DocItemLabel := .other 0
  contentLayer : ContentLayer := .unspecified
  prov : List ProvenanceItem := []
  orig : String := ""
  text : String := ""
  formatting : Option Message := none
  hyperlink : Option String := none
  enumerated : Bool := false
  marker : Option String := none
  rest : Message := .done
  deriving DecidableEq

/-! ### Arenas -/

inductive Arena where
  | groups
  | texts
  | pictures
  | tables
  | keyValueItems
  | formItems
  | fieldRegions
  | fieldItems
  deriving DecidableEq

namespace Arena

/-- The name of an arena in a reference. -/
def name : Arena → String
  | groups => "groups"
  | texts => "texts"
  | pictures => "pictures"
  | tables => "tables"
  | keyValueItems => "key_value_items"
  | formItems => "form_items"
  | fieldRegions => "field_regions"
  | fieldItems => "field_items"

def all : List Arena :=
  [groups, texts, pictures, tables, keyValueItems, formItems, fieldRegions, fieldItems]

theorem mem_all (arena : Arena) :
  arena ∈ all
  := by
  cases arena <;> decide

/-- The arena of a name. -/
def ofName (text : String) : Option Arena :=
  all.find? fun arena => arena.name = text

/-- What the items of an arena carry besides their references. -/
def Fields : Arena → Type
  | groups => GroupFields
  | texts => TextFields
  | _ => Message

end Arena

/-- A slot of an arena. -/
structure Entry (arena : Arena) where
  node : Node
  fields : arena.Fields

structure Document where
  body : Entry .groups
  furniture : Entry .groups
  entries : (arena : Arena) → List (Entry arena)

namespace Document

/-- All nodes of a document. -/
def nodes (document : Document) : List Node :=
  document.body.node :: document.furniture.node ::
    Arena.all.flatMap fun arena => (document.entries arena).map Entry.node

/-- Whether a property holds of all references of a document. -/
def AllRefs (p : String → Prop) (document : Document) : Prop :=
  ∀ node ∈ document.nodes, ∀ ref ∈ node.refs, p ref

variable {document : Document}

theorem body_mem_nodes : document.body.node ∈ document.nodes :=
  List.mem_cons_self ..

theorem furniture_mem_nodes : document.furniture.node ∈ document.nodes :=
  List.mem_cons_of_mem _ (List.mem_cons_self ..)

theorem mem_nodes_of_mem_entries {arena : Arena} {entry : Entry arena}
    (h : entry ∈ document.entries arena) :
  entry.node ∈ document.nodes
  := by
  apply mem_cons_of_mem
  apply mem_cons_of_mem
  exact mem_flatMap.mpr ⟨arena, arena.mem_all, mem_map_of_mem h⟩

/-- The document with the entries of an arena changed. -/
def setEntries (arena : Arena) (entries : List (Entry arena)) (document : Document) : Document :=
  { document with entries := Function.update document.entries arena entries }

end Document

/-! ### Access -/

/-- The entry in a slot of an arena. -/
def getEntry {α : Type} (entries : List α) (index : ℤ) : Run α :=
  if 0 ≤ index then
    match entries[index.toNat]? with
    | some entry => .ok entry
    | none => .error .outOfRange
  else .error .outOfRange

theorem getEntry_ensures {α : Type} {entries : List α} {index : ℤ} (low : 0 ≤ index)
    (high : index < entries.length) :
  Ensures (getEntry entries index) (· ∈ entries)
  := by
  have hlt : index.toNat < entries.length := by omega
  refine ⟨entries[index.toNat], ?_, getElem_mem _⟩
  rw [getEntry, if_pos low, getElem?_eq_getElem hlt]

theorem mem_of_getEntry {α : Type} {entries : List α} {index : ℤ} {entry : α}
    (h : getEntry entries index = .ok entry) :
  entry ∈ entries
  := by
  unfold getEntry at h
  by_cases low : 0 ≤ index
  · rw [if_pos low] at h
    cases hentry : entries[index.toNat]? with
    | none =>
      rw [hentry] at h
      cases h
    | some found =>
      rw [hentry] at h
      cases h
      exact mem_of_getElem? hentry
  · rw [if_neg low] at h
    cases h

/-- Where a node stands. -/
inductive Slot where
  | body
  | furniture
  | entry (arena : Arena) (index : ℤ)
  deriving DecidableEq

namespace Document

/-- `in_range`. -/
def inRange (document : Document) (arena : Arena) (index : ℤ) : Bool :=
  decide (0 ≤ index) && decide (index < (document.entries arena).length)

/-- A text item that is not set has no node. -/
def hasNode : (arena : Arena) → Entry arena → Bool
  | .texts, entry => (entry.fields : TextFields).itemCase != .notSet
  | _, _ => true

/-- The slot that a reference names, if there is a node in it. -/
def resolve (document : Document) (ref : String) : Run (Option Slot) :=
  if ref = "#/body" then .ok (some .body)
  else if ref = "#/furniture" then .ok (some .furniture)
  else do
    let parts ← parseRefParts ref
    match Arena.ofName parts.arena with
    | none => .ok none
    | some arena =>
      if document.inRange arena parts.index then do
        let entry ← getEntry (document.entries arena) parts.index
        .ok (if hasNode arena entry then some (.entry arena parts.index) else none)
      else .ok none

/-- The node in a slot. -/
def nodeAt (document : Document) : Slot → Run Node
  | .body => .ok document.body.node
  | .furniture => .ok document.furniture.node
  | .entry arena index => do
    let entry ← getEntry (document.entries arena) index
    .ok entry.node

/-- The document with another node in a slot. -/
def setNode (document : Document) (node : Node) : Slot → Document
  | .body => { document with body := { document.body with node } }
  | .furniture => { document with furniture := { document.furniture with node } }
  | .entry arena index =>
    document.setEntries arena
      ((document.entries arena).modify index.toNat fun entry => { entry with node })

/-- `node_fields`: the node that a reference names. -/
def nodeFields (document : Document) (ref : String) : Run (Option Node) := do
  match ← document.resolve ref with
  | none => .ok none
  | some slot => do
    let node ← document.nodeAt slot
    .ok (some node)

/-- The children of the node that a reference names. -/
def childRefs (document : Document) (ref : String) : Run (List String) := do
  let node ← document.nodeFields ref
  .ok (node.elim [] (·.children))

def groupAt (entry : Entry .groups) : GroupFields :=
  entry.fields

def textAt (entry : Entry .texts) : TextFields :=
  entry.fields

/-- `is_list_group_ref`. -/
def isListGroupRef (document : Document) (ref : String) : Run Bool :=
  if ref = "#/body" then .ok (decide ((groupAt document.body).label = .list))
  else if ref = "#/furniture" then .ok (decide ((groupAt document.furniture).label = .list))
  else do
    let parts ← parseRefParts ref
    if parts.arena = "groups" ∧ parts.index < (document.entries .groups).length then do
      let group ← getEntry (document.entries .groups) parts.index
      .ok (decide ((groupAt group).label = .list))
    else .ok false

end Document

/-- `is_list_item_entry`. -/
def isListItemEntry (fields : TextFields) : Bool :=
  fields.itemCase == .listItem || fields.itemCase == .text && decide (fields.label = .listItem)

end GRParse.LoadNorm
