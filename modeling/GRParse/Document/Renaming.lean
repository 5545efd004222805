import GRParse.Document.Retire

/-!
# Renaming and pruning, more than once

Two passes over a document that drop children and rename references are one such pass, if the one
drops and renames what the two do together.  A pass that drops and renames nothing changes nothing
but the roots and bases that were not set: these are set on the way.
-/

namespace Protobuf

theorem Message.mapStrings_mapStrings (names : String → Bool) (f g : String → String)
    (message : Message) :
  (message.mapStrings names f).mapStrings names g = message.mapStrings names fun s => g (f s)
  := by
  induction message with
  | done => rfl
  | scalar field value rest ih => rw [mapStrings, mapStrings, ih, mapStrings]
  | string field value rest ih =>
    rw [mapStrings, mapStrings, ih, mapStrings]
    split
    · rfl
    · rfl
  | message field value rest ihValue ihRest =>
    rw [mapStrings, mapStrings, ihValue, ihRest, mapStrings]

theorem Message.mapStrings_id (names : String → Bool) (message : Message) :
  message.mapStrings names (fun s => s) = message
  := by
  induction message with
  | done => rfl
  | scalar field value rest ih => rw [mapStrings, ih]
  | string field value rest ih => rw [mapStrings, ih, ite_self]
  | message field value rest ihValue ihRest => rw [mapStrings, ihValue, ihRest]

end Protobuf

namespace GRParse

open Containers Protobuf

/-! ### Nodes -/

/-- A change of the node of a text item; to be changed, a base is set. -/
def BaseTextItem.mapNode (f : NodeItem → NodeItem) : BaseTextItem → BaseTextItem :=
  modifyBase fun base => { base with toNodeItem := f base.toNodeItem }

/-- A change of all nodes of a document.  To list them, `all_nodes` sets the roots. -/
def FullDocument.mapNodes (f : NodeItem → NodeItem) (document : FullDocument) : FullDocument :=
  { document with
    body := some ⟨f (document.body.getD {}).toNodeItem⟩
    furniture := some ⟨f (document.furniture.getD {}).toNodeItem⟩
    groups := document.groups.map fun group => ⟨f group.toNodeItem⟩
    texts := document.texts.map (·.mapNode f)
    pictures := document.pictures.map fun picture =>
      { picture with toNodeItem := f picture.toNodeItem }
    tables := document.tables.map fun table => { table with toNodeItem := f table.toNodeItem }
    keyValueItems := document.keyValueItems.map f
    formItems := document.formItems.map f
    fieldRegions := document.fieldRegions.map f
    fieldItems := document.fieldItems.map f }

/-- `all_nodes`. -/
def FullDocument.nodes (document : FullDocument) : List NodeItem :=
  (document.body.getD {}).toNodeItem :: (document.furniture.getD {}).toNodeItem ::
    (document.groups.map (·.toNodeItem) ++
      document.texts.filterMap (fun item => item.fields.map (·.toNodeItem)) ++
      document.pictures.map (·.toNodeItem) ++ document.tables.map (·.toNodeItem) ++
      document.keyValueItems ++ document.formItems ++ document.fieldRegions ++
      document.fieldItems)

/-! ### Two passes -/

/-- To drop and rename twice is to drop and rename once. -/
structure Chained (retired retired' both : Finset String) (first second mapping : RefMap) :
    Prop where
  rename : ∀ ref, second.rename (first.rename ref) = mapping.rename ref
  mem : ∀ ref, ref ∈ both ↔ ref ∈ retired ∨ first.rename ref ∈ retired'

section

variable {retired retired' both : Finset String} {first second mapping : RefMap}
variable (h : Chained retired retired' both first second mapping)
include h

theorem Chained.rewriteRest (rest : Message) :
  GRParse.rewriteRest second (GRParse.rewriteRest first rest) = GRParse.rewriteRest mapping rest
  := by
  rw [GRParse.rewriteRest, GRParse.rewriteRest, Message.mapStrings_mapStrings]
  exact congrArg (rest.mapStrings isReference) (funext h.rename)

theorem Chained.refItem (item : RefItem) :
  (item.rewriteRefs first).rewriteRefs second = item.rewriteRefs mapping
  := congrArg RefItem.mk (h.rename item.ref)

theorem Chained.children (children : List RefItem) :
  (((children.filter fun child => child.ref ∉ retired).map (RefItem.rewriteRefs first)).filter
      fun child => child.ref ∉ retired').map (RefItem.rewriteRefs second) =
    (children.filter fun child => child.ref ∉ both).map (RefItem.rewriteRefs mapping)
  := by
  have hboth : children.filter (fun child => child.ref ∉ both) =
      (children.filter fun child => child.ref ∉ retired).filter
        fun child => (child.rewriteRefs first).ref ∉ retired' := by
    rw [List.filter_filter]
    apply List.filter_congr
    intro child _
    have hmem := h.mem child.ref
    have hfirst : (child.rewriteRefs first).ref = first.rename child.ref := rfl
    rw [hfirst, Bool.eq_iff_iff]
    simp only [decide_eq_true_eq, Bool.and_eq_true, hmem, not_or]
    exact and_comm
  rw [List.filter_map, List.map_map, hboth]
  exact List.map_congr_left fun child _ => h.refItem child

theorem Chained.node (node : NodeItem) :
  (((node.pruneChildren retired).rewriteRefs first).pruneChildren retired').rewriteRefs second =
    (node.pruneChildren both).rewriteRefs mapping
  := by
  have hparent : (node.parent.map (RefItem.rewriteRefs first)).map (RefItem.rewriteRefs second) =
      node.parent.map (RefItem.rewriteRefs mapping) := by
    rw [Option.map_map]
    exact congrArg (fun f => node.parent.map f) (funext h.refItem)
  simp only [NodeItem.pruneChildren, NodeItem.rewriteRefs, NodeItem.mk.injEq]
  exact ⟨h.rename _, hparent, h.children _, h.rewriteRest _⟩

theorem Chained.prov (prov : List ProvenanceItem) :
  (prov.map (ProvenanceItem.rewriteRefs first)).map (ProvenanceItem.rewriteRefs second) =
    prov.map (ProvenanceItem.rewriteRefs mapping)
  := by
  rw [List.map_map]
  apply List.map_congr_left
  intro item _
  simp only [Function.comp_apply, ProvenanceItem.rewriteRefs, h.rewriteRest]

/-- A pass over the node of an item that is placed on pages. -/
theorem Chained.docItem (item : DocItem) :
  DocItem.rewriteRefs second
      { DocItem.rewriteRefs first { item with toNodeItem := item.toNodeItem.pruneChildren retired } with
        toNodeItem := ((item.toNodeItem.pruneChildren retired).rewriteRefs first).pruneChildren
          retired' } =
    DocItem.rewriteRefs mapping { item with toNodeItem := item.toNodeItem.pruneChildren both }
  := by
  simp only [DocItem.rewriteRefs, DocItem.mk.injEq, and_true]
  exact ⟨h.node _, h.prov _⟩

theorem Chained.text (item : BaseTextItem) :
  (((item.mapNode (·.pruneChildren retired)).rewriteRefs first).mapNode
      (·.pruneChildren retired')).rewriteRefs second =
    (item.mapNode (·.pruneChildren both)).rewriteRefs mapping
  := by
  cases item with
  | notSet => rfl
  | based kind base rest =>
    simp only [BaseTextItem.mapNode, BaseTextItem.modifyBase, BaseTextItem.rewriteRefs,
      Option.map_some, Option.getD_some, h.rewriteRest, TextItemBase.rewriteRefs,
      BaseTextItem.based.injEq, true_and, and_true, Option.some.injEq, TextItemBase.mk.injEq]
    exact h.docItem _
  | code item =>
    simp only [BaseTextItem.mapNode, BaseTextItem.modifyBase, BaseTextItem.rewriteRefs,
      TextItemBase.rewriteRefs, BaseTextItem.code.injEq, TextItemBase.mk.injEq, and_true]
    exact h.docItem _

theorem Chained.pages (pages : PageMap) :
  (pages.mapValues (PageItem.rewriteRefs first)).mapValues (PageItem.rewriteRefs second) =
    pages.mapValues (PageItem.rewriteRefs mapping)
  := by
  apply Finmap.ext_lookup
  intro page
  rw [Map.lookup_mapValues, Map.lookup_mapValues, Map.lookup_mapValues, Option.map_map]
  apply congrArg fun f => (pages.lookup page).map f
  funext item
  simp only [Function.comp_apply, PageItem.rewriteRefs, h.rewriteRest]

theorem Chained.arena (arena : List NodeItem) :
  (((arena.map (·.pruneChildren retired)).map (NodeItem.rewriteRefs first)).map
      (·.pruneChildren retired')).map (NodeItem.rewriteRefs second) =
    (arena.map (·.pruneChildren both)).map (NodeItem.rewriteRefs mapping)
  := by
  simp only [List.map_map]
  exact List.map_congr_left fun node _ => h.node node

/-- Two passes over a document are one. -/
theorem Chained.document (document : FullDocument) :
  (((document.mapNodes (·.pruneChildren retired)).rewriteReferences first).mapNodes
      (·.pruneChildren retired')).rewriteReferences second =
    (document.mapNodes (·.pruneChildren both)).rewriteReferences mapping
  := by
  have hgroup : ∀ group : GroupItem, GroupItem.rewriteRefs second
      ⟨(GroupItem.rewriteRefs first ⟨group.toNodeItem.pruneChildren retired⟩).toNodeItem.pruneChildren
        retired'⟩ = GroupItem.rewriteRefs mapping ⟨group.toNodeItem.pruneChildren both⟩ :=
    fun group => congrArg GroupItem.mk (h.node group.toNodeItem)
  simp only [FullDocument.mapNodes, FullDocument.rewriteReferences, Document.rewriteReferences,
    FullDocument.mk.injEq, Document.mk.injEq, Option.map_some, Option.getD_some, Option.some.injEq]
  refine ⟨⟨hgroup _, hgroup _, ?_, ?_, ?_, ?_, h.pages _, h.rewriteRest _⟩, h.arena _, h.arena _,
    h.arena _, h.arena _⟩
  · simp only [List.map_map]
    exact List.map_congr_left fun group _ => hgroup group
  · simp only [List.map_map]
    exact List.map_congr_left fun item _ => h.text item
  · simp only [List.map_map]
    exact List.map_congr_left fun picture _ => congrArg PictureItem.mk (h.docItem _)
  · simp only [List.map_map]
    exact List.map_congr_left fun table _ => congrArg TableItem.mk (h.docItem _)

end

/-! ### No pass -/

theorem rewriteRest_empty (rest : Message) :
  rewriteRest ∅ rest = rest
  := Message.mapStrings_id isReference rest

theorem RefItem.rewriteRefs_empty (item : RefItem) :
  item.rewriteRefs ∅ = item
  := congrArg RefItem.mk (RefMap.rename_of_notMem Finmap.notMem_empty)

theorem NodeItem.rewriteRefs_empty (node : NodeItem) :
  (node.pruneChildren ∅).rewriteRefs ∅ = node
  := by
  have hrefs : RefItem.rewriteRefs ∅ = id := funext RefItem.rewriteRefs_empty
  have hself : RefMap.rename ∅ node.selfRef = node.selfRef :=
    RefMap.rename_of_notMem Finmap.notMem_empty
  simp only [NodeItem.pruneChildren, NodeItem.rewriteRefs, hrefs, List.map_id, Option.map_id, id_eq,
    hself, rewriteRest_empty, Finset.notMem_empty, not_false_eq_true, decide_true, List.filter_true]

theorem DocItem.rewriteRefs_empty (item : DocItem) :
  DocItem.rewriteRefs ∅ { item with toNodeItem := item.toNodeItem.pruneChildren ∅ } = item
  := by
  have hprov : ProvenanceItem.rewriteRefs ∅ = id := by
    funext prov
    simp only [ProvenanceItem.rewriteRefs, rewriteRest_empty, id_eq]
  simp only [DocItem.rewriteRefs, NodeItem.rewriteRefs_empty, hprov, List.map_id]

theorem BaseTextItem.rewriteRefs_empty (item : BaseTextItem) :
  (item.mapNode (·.pruneChildren ∅)).rewriteRefs ∅ = item.mapNode fun node => node
  := by
  cases item with
  | notSet => rfl
  | based kind base rest =>
    simp only [mapNode, modifyBase, rewriteRefs, TextItemBase.rewriteRefs, Option.map_some,
      DocItem.rewriteRefs_empty, rewriteRest_empty]
  | code item =>
    simp only [mapNode, modifyBase, rewriteRefs, TextItemBase.rewriteRefs,
      DocItem.rewriteRefs_empty]

/-- A pass that drops and renames nothing only sets what was not set. -/
theorem FullDocument.rewriteReferences_empty (document : FullDocument) :
  (document.mapNodes (·.pruneChildren ∅)).rewriteReferences ∅ = document.mapNodes fun node => node
  := by
  have hgroup : ∀ group : GroupItem,
      GroupItem.rewriteRefs ∅ ⟨group.toNodeItem.pruneChildren ∅⟩ = ⟨group.toNodeItem⟩ :=
    fun group => congrArg GroupItem.mk (NodeItem.rewriteRefs_empty group.toNodeItem)
  have harena : ∀ arena : List NodeItem,
      (arena.map (·.pruneChildren ∅)).map (NodeItem.rewriteRefs ∅) = arena.map fun node => node := by
    intro arena
    rw [List.map_map]
    exact List.map_congr_left fun node _ => NodeItem.rewriteRefs_empty node
  have hpages : document.pages.mapValues (PageItem.rewriteRefs ∅) = document.pages := by
    apply Finmap.ext_lookup
    intro page
    have hpage : PageItem.rewriteRefs ∅ = id := by
      funext item
      simp only [PageItem.rewriteRefs, rewriteRest_empty, id_eq]
    rw [Map.lookup_mapValues, hpage, Option.map_id, id_eq]
  simp only [mapNodes, rewriteReferences, Document.rewriteReferences, FullDocument.mk.injEq,
    Document.mk.injEq, Option.map_some, Option.some.injEq, hpages, rewriteRest_empty, and_true]
  refine ⟨⟨hgroup _, hgroup _, ?_, ?_, ?_, ?_⟩, harena _, harena _, harena _, harena _⟩
  · rw [List.map_map]
    exact List.map_congr_left fun group _ => hgroup group
  · rw [List.map_map]
    exact List.map_congr_left fun item _ => item.rewriteRefs_empty
  · rw [List.map_map]
    exact List.map_congr_left fun picture _ =>
      congrArg PictureItem.mk (DocItem.rewriteRefs_empty picture.toDocItem)
  · rw [List.map_map]
    exact List.map_congr_left fun table _ =>
      congrArg TableItem.mk (DocItem.rewriteRefs_empty table.toDocItem)

end GRParse
