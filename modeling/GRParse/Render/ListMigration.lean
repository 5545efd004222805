import GRParse.Render.LoadDocument
import Mathlib.Data.Finset.Sort
import Mathlib.Data.Prod.Lex
import Mathlib.Data.String.Basic
import Mathlib.Data.Int.Interval

/-!
# Migration of misplaced list items

A list item whose parent is no list group is re-homed when a document is loaded: the items of each
run go to a list group that is inserted where the first one stood, under new names at the end of the
text arena.  What they leave behind is deleted, and every reference in the body tree is renumbered.

The source goes through the tree by recursion; here the references that are still to be visited
wait on a stack, in the same order.
-/

namespace GRParse.LoadNorm

open Traverse List LoadNorm.Document

/-! ### Detection -/

/-- The loop of `has_misplaced_list_items`. -/
def anyMisplaced (document : Document) : List (Entry .texts) → Run Bool
  | [] => .ok false
  | text :: texts =>
    match isListItemEntry (Document.textAt text), text.node.parent with
    | true, some parent => do
      if ← document.isListGroupRef parent then anyMisplaced document texts
      else .ok true
    | _, _ => anyMisplaced document texts

/-- `has_misplaced_list_items`. -/
def hasMisplacedListItems (document : Document) : Run Bool :=
  anyMisplaced document (document.entries .texts)

/-! ### Runs -/

/-- The runs of misplaced list items so far, and what the last visited node was. -/
structure RunCollector where
  runs : List (List ℤ) := []
  prevIsListItem : Bool := false
  prevParentBodyOrNone : Bool := false

/-- An index goes to the last run, or begins one. -/
def RunCollector.add (collector : RunCollector) (index : ℤ) : List (List ℤ) :=
  if collector.prevIsListItem && collector.prevParentBodyOrNone && !collector.runs.isEmpty then
    collector.runs.modifyLast fun run => run ++ [index]
  else collector.runs ++ [[index]]

/-- `RunCollector::visit` at a list item. -/
def RunCollector.visitItem (document : Document) (ref : String) (index : ℤ)
    (collector : RunCollector) : Run RunCollector := do
  match (← document.nodeFields ref).bind (·.parent) with
  | none => .ok { collector with prevIsListItem := true, prevParentBodyOrNone := true }
  | some parent => do
    let inGroup ← document.isListGroupRef parent
    .ok
      { runs := if inGroup then collector.runs else collector.add index
        prevIsListItem := true
        prevParentBodyOrNone := decide (parent = "#/body") }

/-- `RunCollector::visit`, up to the children. -/
def RunCollector.visit (document : Document) (ref : String) (collector : RunCollector) :
    Run RunCollector := do
  let other := { collector with prevIsListItem := false, prevParentBodyOrNone := false }
  let parts ← parseRefParts ref
  if parts.arena = "texts" ∧ parts.index < (document.entries .texts).length then do
    let text ← getEntry (document.entries .texts) parts.index
    if isListItemEntry (Document.textAt text) then
      collector.visitItem document ref parts.index
    else .ok other
  else .ok other

/-- All children that nodes of a document list. -/
def Document.childNames (document : Document) : Finset String :=
  (document.nodes.flatMap (·.children)).toFinset

variable {document : Document}

theorem mem_nodes_of_nodeAt {slot : Slot} {node : Node} (h : document.nodeAt slot = .ok node) :
  node ∈ document.nodes
  := by
  cases slot with
  | body =>
    cases h
    exact body_mem_nodes
  | furniture =>
    cases h
    exact furniture_mem_nodes
  | entry arena index =>
    obtain ⟨entry, hentry, hnode⟩ := bind_eq_ok.mp h
    cases hnode
    exact mem_nodes_of_mem_entries (mem_of_getEntry hentry)

theorem mem_nodes_of_nodeFields {ref : String} {node : Node}
    (h : document.nodeFields ref = .ok (some node)) :
  node ∈ document.nodes
  := by
  obtain ⟨slot, -, hslot⟩ := bind_eq_ok.mp h
  cases slot with
  | none => cases hslot
  | some slot =>
    obtain ⟨found, hfound, hnode⟩ := bind_eq_ok.mp hslot
    cases hnode
    exact mem_nodes_of_nodeAt hfound

theorem mem_childNames_of_node {node : Node} (h : node ∈ document.nodes) {child : String}
    (hchild : child ∈ node.children) :
  child ∈ document.childNames
  := mem_toFinset.mpr (mem_flatMap.mpr ⟨node, h, hchild⟩)

/-- The children of a node are names of the document. -/
theorem mem_childNames_of_childRefs {ref : String} {children : List String}
    (h : document.childRefs ref = .ok children) :
  ∀ child ∈ children, child ∈ document.childNames
  := by
  obtain ⟨node, hnode, hchildren⟩ := bind_eq_ok.mp h
  cases hchildren
  cases node with
  | none => exact fun child hchild => absurd hchild not_mem_nil
  | some node => exact fun child => mem_childNames_of_node (mem_nodes_of_nodeFields hnode)

/-- The collector goes through the tree. -/
def collectorTraversal (document : Document) : Traversal Fault String RunCollector where
  step collector ref := do
    let collector ← collector.visit document ref
    let children ← document.childRefs ref
    .ok (collector, children)
  names _ := document.childNames
  names_subset _ := subset_rfl
  next_mem := by
    intro _ _ _ _ h
    obtain ⟨_, -, h⟩ := bind_eq_ok.mp h
    obtain ⟨children, hchildren, h⟩ := bind_eq_ok.mp h
    cases h
    exact mem_childNames_of_childRefs hchildren

/-- The runs below the body. -/
def collectRuns (document : Document) : Run (List (List ℤ)) := do
  let collector ← (collectorTraversal document).run ∅ {} ["#/body"]
  .ok collector.runs

/-! ### Deleted slots -/

/-- The slots that are to be deleted, in the order of their arenas and indices. -/
abbrev Deleted := Finset (String ×ₗ ℤ)

/-- The slots that are deleted in an arena, if there are any. -/
def Deleted.find (deleted : Deleted) (arena : String) : Option (List ℤ) :=
  match (deleted.sort (· ≤ ·)).filter fun slot => (ofLex slot).1 = arena with
  | [] => none
  | slots => some (slots.map fun slot => (ofLex slot).2)

/-- `collect_subtree` goes through what hangs from the run. -/
def subtreeTraversal (document : Document) : Traversal Fault String Deleted where
  step deleted ref := do
    let parts ← parseRefParts ref
    let children ← document.childRefs ref
    .ok (if parts.arena = "" then deleted else insert (toLex (parts.arena, parts.index)) deleted,
      children)
  names _ := document.childNames
  names_subset _ := subset_rfl
  next_mem := by
    intro _ _ _ _ h
    obtain ⟨_, -, h⟩ := bind_eq_ok.mp h
    obtain ⟨children, hchildren, h⟩ := bind_eq_ok.mp h
    cases h
    exact mem_childNames_of_childRefs hchildren

/-- `collect_subtree`, for all references of a run. -/
def collectSubtrees (document : Document) (runRefs : List String) : Run Deleted :=
  (subtreeTraversal document).run ∅ ∅ runRefs

/-- One deleted node leaves the children of its parent. -/
def unlinkFromParent (document : Document) (slot : String ×ₗ ℤ) : Run Document := do
  let ref := refOf (ofLex slot).1 (ofLex slot).2
  match (← document.nodeFields ref).bind (·.parent) with
  | none => .ok document
  | some parent => do
    match ← document.resolve parent with
    | none => .ok document
    | some owner => do
      let node ← document.nodeAt owner
      .ok (document.setNode { node with children := node.children.erase ref } owner)

/-- `unlink_from_parents`. -/
def unlinkFromParents (document : Document) (deleted : Deleted) : Run Document :=
  (deleted.sort (· ≤ ·)).foldlM unlinkFromParent document

/-- One entry is erased, if it is there. -/
def eraseEntry {α : Type} (entries : List α) (index : ℤ) : Run (List α) :=
  if 0 ≤ index ∧ index < entries.length then do
    let _ ← getEntry entries index
    .ok (entries.eraseIdx index.toNat)
  else .ok entries

/-- `erase_descending`. -/
def eraseDescending {α : Type} (entries : List α) (indices : List ℤ) : Run (List α) :=
  indices.reverse.foldlM eraseEntry entries

/-- `delete_arena_entries`. -/
def deleteArenaEntries (deleted : Deleted) (document : Document) (arena : Arena) : Run Document :=
  match deleted.find arena.name with
  | none => .ok document
  | some indices => do
    let entries ← eraseDescending (document.entries arena) indices
    .ok (document.setEntries arena entries)

/-! ### Renumbering -/

/-- `renumbered_ref`: an index moves down by one for each deleted slot at or below it. -/
def renumberedRef (deleted : Deleted) (ref : String) : Run String := do
  let parts ← parseRefParts ref
  if parts.arena = "" then .ok ref
  else
    match deleted.find parts.arena with
    | none => .ok ref
    | some indices => do
      let delta ← indices.foldlM (fun (delta : ℤ) index =>
        if index ≤ parts.index then int (delta - 1) else .ok delta) 0
      let index ← int (parts.index + delta)
      .ok (refOf parts.arena index)

/-- `filter_and_renumber`: the references to the run go. -/
def filterAndRenumber (deleted : Deleted) (runRefs refs : List String) : Run (List String) :=
  (refs.filter fun ref => ref ∉ runRefs).mapM (renumberedRef deleted)

/-- What `renumber_subtree` does to a node. -/
def renumberNode (deleted : Deleted) (runRefs : List String) (node : Node) : Run Node := do
  let comments ← node.comments.mapM (renumberedRef deleted)
  let captions ← filterAndRenumber deleted runRefs node.captions
  let references ← filterAndRenumber deleted runRefs node.references
  let footnotes ← filterAndRenumber deleted runRefs node.footnotes
  let cellRefs ← node.cellRefs.mapM fun ref => ref.mapM (renumberedRef deleted)
  let parent ← node.parent.mapM (renumberedRef deleted)
  let selfRef ← renumberedRef deleted node.selfRef
  let children ← filterAndRenumber deleted runRefs node.children
  .ok { selfRef, parent, children, comments, captions, references, footnotes, cellRefs }

/-- How many slots are deleted in an arena. -/
def Deleted.count (deleted : Deleted) (arena : String) : ℕ :=
  (deleted.find arena).elim 0 List.length

/-- The slots up to a number of an arena, and those that a number of deleted ones can lead to. -/
def slotsUpTo (arena : String) (deleted last : ℕ) : Finset String :=
  (Finset.range (deleted + last + 1)).image fun slot : ℕ => refOf arena ((slot : ℤ) - deleted)

theorem mem_slotsUpTo {arena : String} {deleted last : ℕ} {ref : String} :
  ref ∈ slotsUpTo arena deleted last ↔
    ∃ index : ℤ, (-(deleted : ℤ) ≤ index ∧ index ≤ last) ∧ refOf arena index = ref
  := by
  rw [slotsUpTo, Finset.mem_image]
  constructor
  · rintro ⟨slot, hslot, rfl⟩
    rw [Finset.mem_range] at hslot
    exact ⟨(slot : ℤ) - deleted, by omega, rfl⟩
  · rintro ⟨index, hindex, rfl⟩
    refine ⟨(index + deleted).toNat, Finset.mem_range.mpr (by omega), ?_⟩
    congr 1
    omega

/-- A reference, and what it can be renumbered to, once or more often. -/
def renumberings (deleted : Deleted) (ref : String) : Finset String :=
  match splitRef ref with
  | none => {ref}
  | some (arena, text) =>
    if text.all Char.isDigit then
      insert ref (slotsUpTo arena (deleted.count arena) (spelled text))
    else {ref}

theorem mem_renumberings_self (deleted : Deleted) (ref : String) :
  ref ∈ renumberings deleted ref
  := by
  unfold renumberings
  split
  case h_1 => exact Finset.mem_singleton_self _
  case h_2 =>
    split
    case isTrue => exact Finset.mem_insert_self ..
    case isFalse => exact Finset.mem_singleton_self _

/-- The index moves down by at most the number of deleted slots. -/
theorem foldlM_delta_bounds {index delta result : ℤ} {indices : List ℤ}
    (h : indices.foldlM (fun (delta : ℤ) deleted =>
      if deleted ≤ index then int (delta - 1) else .ok delta) delta = .ok result) :
  delta - indices.length ≤ result ∧ result ≤ delta
  := by
  induction indices generalizing delta with
  | nil =>
    cases h
    simp
  | cons deleted indices ih =>
    rw [foldlM_cons] at h
    obtain ⟨next, hnext, h⟩ := bind_eq_ok.mp h
    obtain ⟨hlow, hhigh⟩ := ih h
    have hstep : delta - 1 ≤ next ∧ next ≤ delta := by
      by_cases hle : deleted ≤ index
      · rw [if_pos hle] at hnext
        rw [eq_of_int hnext]
        omega
      · rw [if_neg hle] at hnext
        cases hnext
        omega
    rw [length_cons]
    omega

variable {deleted : Deleted}

/-- What a reference is renumbered to. -/
theorem renumberedRef_eq_ok {ref result : String} (h : renumberedRef deleted ref = .ok result) :
  result = ref ∨ ∃ arena text index, splitRef ref = some (arena, text) ∧
    text.all Char.isDigit = true ∧ result = refOf arena index ∧
      -(deleted.count arena : ℤ) ≤ index ∧ index ≤ spelled text
  := by
  obtain ⟨parts, hparts, h⟩ := bind_eq_ok.mp h
  by_cases harena : parts.arena = ""
  · rw [if_pos harena] at h
    cases h
    exact .inl rfl
  · rw [if_neg harena] at h
    cases hfind : deleted.find parts.arena with
    | none =>
      rw [hfind] at h
      cases h
      exact .inl rfl
    | some indices =>
      rw [hfind] at h
      obtain ⟨delta, hdelta, h⟩ := bind_eq_ok.mp h
      obtain ⟨index, hindex, h⟩ := bind_eq_ok.mp h
      cases h
      rw [eq_of_parseRefParts hparts] at harena hfind hdelta ⊢
      rcases spelledParts_cases ref with hnone | ⟨text, hsplit, hall, hspelled⟩
      · rw [hnone] at harena
        exact absurd rfl harena
      · obtain ⟨hlow, hhigh⟩ := foldlM_delta_bounds hdelta
        have hcount : deleted.count (spelledParts ref).arena = indices.length := by
          rw [Deleted.count, hfind]
          rfl
        have heq := eq_of_int hindex
        rw [eq_of_parseRefParts hparts] at heq
        exact .inr ⟨_, text, index, hsplit, hall, rfl, by omega, by omega⟩

/-- To renumber again leads no further. -/
theorem renumberings_subset {ref result : String} (h : renumberedRef deleted ref = .ok result) :
  renumberings deleted result ⊆ renumberings deleted ref
  := by
  rcases renumberedRef_eq_ok h with rfl | ⟨arena, text, index, hsplit, hall, rfl, hlow, hhigh⟩
  · exact subset_rfl
  · have hmem : refOf arena index ∈ renumberings deleted ref := by
      rw [renumberings, hsplit]
      dsimp only
      rw [if_pos hall]
      exact Finset.mem_insert_of_mem (mem_slotsUpTo.mpr ⟨index, ⟨hlow, hhigh⟩, rfl⟩)
    have hslash := slash_notMem_of_splitRef hsplit
    have hsplit' := splitRef_refOf hslash index
    intro other hother
    unfold renumberings at hother
    rw [hsplit'] at hother
    dsimp only at hother
    rw [all_isDigit_toString] at hother
    by_cases hnonneg : 0 ≤ index
    · obtain ⟨slot, rfl⟩ := Int.eq_ofNat_of_zero_le hnonneg
      rw [spelled_toString] at hother
      simp only [hnonneg, decide_true, if_true, Finset.mem_insert, mem_slotsUpTo] at hother
      rcases hother with rfl | ⟨next, ⟨hlow', hhigh'⟩, rfl⟩
      · exact hmem
      · rw [renumberings, hsplit]
        dsimp only
        rw [if_pos hall]
        exact Finset.mem_insert_of_mem (mem_slotsUpTo.mpr ⟨next, ⟨hlow', by omega⟩, rfl⟩)
    · simp only [hnonneg, decide_false, Bool.false_eq_true, if_false,
        Finset.mem_singleton] at hother
      rw [hother]
      exact hmem

/-- The children that are left are renumbered from children. -/
theorem mem_children_renumberNode {runRefs : List String} {node result : Node}
    (h : renumberNode deleted runRefs node = .ok result) {child : String}
    (hchild : child ∈ result.children) :
  ∃ old ∈ node.children, renumberedRef deleted old = .ok child
  := by
  obtain ⟨_, -, h⟩ := bind_eq_ok.mp h
  obtain ⟨_, -, h⟩ := bind_eq_ok.mp h
  obtain ⟨_, -, h⟩ := bind_eq_ok.mp h
  obtain ⟨_, -, h⟩ := bind_eq_ok.mp h
  obtain ⟨_, -, h⟩ := bind_eq_ok.mp h
  obtain ⟨_, -, h⟩ := bind_eq_ok.mp h
  obtain ⟨_, -, h⟩ := bind_eq_ok.mp h
  obtain ⟨children, hchildren, h⟩ := bind_eq_ok.mp h
  cases h
  obtain ⟨old, hold, heq⟩ := mem_of_mapM hchildren hchild
  exact ⟨old, (mem_filter.mp hold).1, heq⟩

/-- Another node in a slot leaves the others. -/
theorem mem_nodes_setNode {slot : Slot} {node other : Node}
    (h : other ∈ (document.setNode node slot).nodes) :
  other ∈ document.nodes ∨ other = node
  := by
  cases slot with
  | body =>
    rcases mem_cons.mp h with rfl | h
    · exact .inr rfl
    · exact .inl (mem_cons_of_mem _ h)
  | furniture =>
    rcases mem_cons.mp h with rfl | h
    · exact .inl body_mem_nodes
    · rcases mem_cons.mp h with rfl | h
      · exact .inr rfl
      · exact .inl (mem_cons_of_mem _ (mem_cons_of_mem _ h))
  | entry arena index =>
    rcases mem_cons.mp h with rfl | h
    · exact .inl body_mem_nodes
    · rcases mem_cons.mp h with rfl | h
      · exact .inl furniture_mem_nodes
      · obtain ⟨arena', -, hmem⟩ := mem_flatMap.mp h
        obtain ⟨entry, hentry, rfl⟩ := mem_map.mp hmem
        by_cases heq : arena' = arena
        · subst heq
          simp only [setNode, setEntries, Function.update_self] at hentry
          obtain ⟨position, hposition⟩ := mem_iff_getElem?.mp hentry
          rw [getElem?_modify] at hposition
          split at hposition
          case isTrue =>
            obtain ⟨old, -, rfl⟩ := Option.map_eq_some_iff.mp hposition
            exact .inr rfl
          case isFalse =>
            simp only [id_map'] at hposition
            exact .inl (mem_nodes_of_mem_entries (mem_of_getElem? hposition))
        · simp only [setNode, setEntries, Function.update_of_ne heq] at hentry
          exact .inl (mem_nodes_of_mem_entries hentry)

/-- The names that renumbering can lead to. -/
def Document.renumberingNames (deleted : Deleted) (document : Document) : Finset String :=
  document.childNames.biUnion (renumberings deleted)

/-- `renumber_subtree` at a node, up to the children. -/
def renumberStep (deleted : Deleted) (runRefs : List String) (document : Document)
    (ref : String) : Run (Document × List String) := do
  match ← document.resolve ref with
  | none => .ok (document, [])
  | some slot => do
    let node ← document.nodeAt slot
    let node ← renumberNode deleted runRefs node
    .ok (document.setNode node slot, node.children)

/-- What a step of the renumbering does. -/
theorem renumberStep_eq_ok {runRefs : List String} {document result : Document} {ref : String}
    {next : List String} (h : renumberStep deleted runRefs document ref = .ok (result, next)) :
  result = document ∧ next = [] ∨ ∃ slot, ∃ node ∈ document.nodes, ∃ renumbered,
    renumberNode deleted runRefs node = .ok renumbered ∧
      result = document.setNode renumbered slot ∧ next = renumbered.children
  := by
  obtain ⟨slot, -, h⟩ := bind_eq_ok.mp h
  cases slot with
  | none =>
    cases h
    exact .inl ⟨rfl, rfl⟩
  | some slot =>
    obtain ⟨node, hnode, h⟩ := bind_eq_ok.mp h
    obtain ⟨renumbered, hrenumbered, h⟩ := bind_eq_ok.mp h
    cases h
    exact .inr ⟨slot, node, mem_nodes_of_nodeAt hnode, renumbered, hrenumbered, rfl, rfl⟩

theorem renumberings_subset_of_child {runRefs : List String} {node renumbered : Node}
    (hnode : node ∈ document.nodes) (h : renumberNode deleted runRefs node = .ok renumbered)
    {child : String} (hchild : child ∈ renumbered.children) :
  renumberings deleted child ⊆ document.renumberingNames deleted
  := by
  obtain ⟨old, hold, heq⟩ := mem_children_renumberNode h hchild
  exact (renumberings_subset heq).trans
    (Finset.subset_biUnion_of_mem (renumberings deleted) (mem_childNames_of_node hnode hold))

/-- `renumber_subtree` goes through the tree. -/
def renumberTraversal (deleted : Deleted) (runRefs : List String) :
    Traversal Fault String Document where
  step := renumberStep deleted runRefs
  names document := document.renumberingNames deleted
  names_subset := by
    intro document _ _ _ h
    rcases renumberStep_eq_ok h with ⟨rfl, -⟩ | ⟨slot, node, hnode, renumbered, heq, rfl, -⟩
    · exact subset_rfl
    · apply Finset.biUnion_subset.mpr
      intro child hchild
      obtain ⟨other, hother, hlisted⟩ := List.mem_flatMap.mp (List.mem_toFinset.mp hchild)
      rcases mem_nodes_setNode hother with hold | rfl
      · exact Finset.subset_biUnion_of_mem (renumberings deleted)
          (mem_childNames_of_node hold hlisted)
      · exact renumberings_subset_of_child hnode heq hlisted
  next_mem := by
    intro document _ _ _ h child hchild
    rcases renumberStep_eq_ok h with ⟨-, rfl⟩ | ⟨slot, node, hnode, renumbered, heq, -, rfl⟩
    · cases hchild
    · exact renumberings_subset_of_child hnode heq hchild (mem_renumberings_self deleted child)

/-- `delete_run_subtrees`: the document without the run, and the deleted slots. -/
def deleteRunSubtrees (document : Document) (runRefs : List String) :
    Run (Document × Deleted) := do
  let deleted ← collectSubtrees document runRefs
  let document ← unlinkFromParents document deleted
  let document ← Arena.all.foldlM (deleteArenaEntries deleted) document
  let document ← (renumberTraversal deleted runRefs).run ∅ document ["#/body"]
  .ok (document, deleted)

end GRParse.LoadNorm
