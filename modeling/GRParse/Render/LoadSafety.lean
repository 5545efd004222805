import GRParse.Render.ListMigration
import Mathlib.Data.List.ReduceOption

/-!
# The load normalization stays in its arenas

A reference whose leading digits spell an `int` is read as the number they spell, or is refused.  In
a document with only such references, detection, the collection of runs and the deletion of a run
access existing entries only, and no `int` leaves its range.
-/

namespace GRParse.LoadNorm

open Traverse List LoadNorm.Document

/-! ### References -/

/-- A reference is read without a fault, as nothing or as the number that its digits spell. -/
def ReadExactly (ref : String) : Prop :=
  Ensures (parseRefParts ref) fun parts => parts = {} ∨
    ∃ text, splitRef ref = some (parts.arena, text) ∧ text.all Char.isDigit = true ∧
      parts.index = spelled text

theorem readExactly_iff (ref : String) :
  ReadExactly ref ↔ Bounded ref
  := by
  constructor
  · rintro ⟨parts, hparts, -⟩
    by_contra h
    rw [parseRefParts_of_not_bounded h] at hparts
    cases hparts
  · intro h
    exact ⟨_, parseRefParts_of_bounded h, spelledParts_cases ref⟩

/-- What reading yields fits an `int`, and is negative only when the reference is refused. -/
def Fits (parts : RefParts) : Prop :=
  parts = {} ∨ 0 ≤ parts.index ∧ parts.index ≤ intMax ∧ '/' ∉ parts.arena.toList

theorem takeWhile_isDigit {text : List Char} (h : text.all Char.isDigit = true) :
  leadingDigits text = text
  := takeWhile_eq_self_iff.mpr fun c hc => all_eq_true.mp h c hc

variable {ref : String}

theorem parseRefParts_fits (h : Bounded ref) :
  Ensures (parseRefParts ref) Fits
  := by
  refine ⟨_, parseRefParts_of_bounded h, ?_⟩
  rcases spelledParts_cases ref with hnone | ⟨text, hsplit, hall, hspelled⟩
  · exact .inl hnone
  · have hbound := h _ _ hsplit
    rw [takeWhile_isDigit hall] at hbound
    exact .inr ⟨by omega, by omega, slash_notMem_of_splitRef hsplit⟩

/-- The reference to a slot that an `int` counts is read as that. -/
theorem bounded_refOf {arena : String} (h : '/' ∉ arena.toList) {index : ℤ}
    (hindex : index ≤ intMax) :
  Bounded (refOf arena index)
  := by
  intro arena' text hsplit
  rw [splitRef_refOf h] at hsplit
  cases hsplit
  cases index with
  | ofNat index =>
    rw [Int.ofNat_eq_natCast, takeWhile_isDigit, spelled_toString]
    · exact hindex
    · rw [all_isDigit_toString]
      simp
  | negSucc index =>
    rw [toList_toString_negSucc, leadingDigits, takeWhile_cons_of_neg (by decide)]
    decide

theorem bounded_body : Bounded "#/body" := by
  have hsplit : splitRef "#/body" = none := by decide
  intro arena text h
  rw [hsplit] at h
  cases h

/-! ### Accesses -/

section Access

variable {document : Document}

theorem resolve_ensures (h : Bounded ref) :
  Ensures (document.resolve ref) fun found => ∀ slot ∈ found,
    Ensures (document.nodeAt slot) (· ∈ document.nodes)
  := by
  unfold resolve
  split
  case isTrue =>
    refine .pure fun slot hslot => ?_
    cases hslot
    exact .pure body_mem_nodes
  case isFalse =>
    split
    case isTrue =>
      refine .pure fun slot hslot => ?_
      cases hslot
      exact .pure furniture_mem_nodes
    case isFalse =>
      refine (parseRefParts_fits h).bind fun parts _ => ?_
      split
      case h_1 => exact .pure fun _ hslot => by cases hslot
      case h_2 arena _ =>
        split
        case isFalse => exact .pure fun _ hslot => by cases hslot
        case isTrue hrange =>
          rw [inRange, Bool.and_eq_true, decide_eq_true_iff, decide_eq_true_iff] at hrange
          have hentry := getEntry_ensures hrange.1 hrange.2
          refine hentry.bind fun entry _ => .pure fun slot hslot => ?_
          split at hslot
          case isFalse => cases hslot
          case isTrue =>
            cases hslot
            exact hentry.bind fun entry hmem => .pure (mem_nodes_of_mem_entries hmem)

theorem nodeFields_ensures (h : Bounded ref) :
  Ensures (document.nodeFields ref) fun found => ∀ node ∈ found, node ∈ document.nodes
  := by
  refine (resolve_ensures h).bind fun slot hslot => ?_
  cases slot with
  | none => exact .pure fun _ hnode => by cases hnode
  | some slot =>
    refine (hslot slot rfl).bind fun node hnode => .pure fun other hother => ?_
    cases hother
    exact hnode

theorem isListGroupRef_ensures (h : Bounded ref) :
  Ensures (document.isListGroupRef ref) fun _ => True
  := by
  unfold isListGroupRef
  split
  case isTrue => exact .pure trivial
  case isFalse =>
    split
    case isTrue => exact .pure trivial
    case isFalse =>
      refine (parseRefParts_fits h).bind fun parts hparts => ?_
      split
      case isFalse => exact .pure trivial
      case isTrue hgroup =>
        -- only the upper bound is checked: what is refused names no arena
        rcases hparts with rfl | ⟨hlow, -, -⟩
        · exact absurd hgroup.1 (by decide)
        · exact (getEntry_ensures hlow hgroup.2).bind fun _ _ => .pure trivial

/-- A property of all references holds of those of a node. -/
theorem childRefs_ensures {p : String → Prop} (hall : document.AllRefs p) (h : Bounded ref) :
  Ensures (document.childRefs ref) fun children => ∀ child ∈ children, p child
  := by
  refine (nodeFields_ensures h).bind fun node hnode => .pure fun child hchild => ?_
  cases node with
  | none => cases hchild
  | some node =>
    refine hall node (hnode node rfl) child (mem_cons_of_mem _ ?_)
    simp only [mem_append]
    exact .inl (.inl (.inl (.inl (.inl (.inr hchild)))))

theorem mem_refs_of_parent {node : Node} {parent : String} (h : node.parent = some parent) :
  parent ∈ node.refs
  := by
  apply mem_cons_of_mem
  simp [h]

/-! ### Detection and runs -/

variable (hall : document.AllRefs Bounded)
include hall

theorem anyMisplaced_ensures {texts : List (Entry .texts)}
    (htexts : ∀ text ∈ texts, text ∈ document.entries .texts) :
  Ensures (anyMisplaced document texts) fun _ => True
  := by
  induction texts with
  | nil => exact .pure trivial
  | cons text texts ih =>
    obtain ⟨hhead, htail⟩ := forall_mem_cons.mp htexts
    unfold anyMisplaced
    split
    case h_1 parent _ hparent =>
      have hbounded := hall _ (mem_nodes_of_mem_entries hhead) _
        (mem_refs_of_parent hparent)
      refine (isListGroupRef_ensures hbounded).bind fun inGroup _ => ?_
      cases inGroup with
      | true => exact ih htail
      | false => exact .pure trivial
    case h_2 => exact ih htail

theorem visit_ensures (h : Bounded ref) (collector : RunCollector) :
  Ensures (collector.visit document ref) fun _ => True
  := by
  unfold RunCollector.visit
  refine (parseRefParts_fits h).bind fun parts hparts => ?_
  split
  case isFalse => exact .pure trivial
  case isTrue htext =>
    -- only the upper bound is checked here too
    rcases hparts with rfl | ⟨hlow, -, -⟩
    · exact absurd htext.1 (by decide)
    · refine (getEntry_ensures hlow htext.2).bind fun text _ => ?_
      split
      case isFalse => exact .pure trivial
      case isTrue =>
        unfold RunCollector.visitItem
        refine (nodeFields_ensures h).bind fun node hnode => ?_
        split
        case h_1 => exact .pure trivial
        case h_2 parent hparent =>
          obtain ⟨node, rfl, hparent⟩ := Option.bind_eq_some_iff.mp hparent
          have hbounded := hall node (hnode node rfl) parent (mem_refs_of_parent hparent)
          exact (isListGroupRef_ensures hbounded).bind fun _ _ => .pure trivial

theorem collectRuns_ensures : Ensures (collectRuns document) fun _ => True := by
  have hstep : ∀ (collector : RunCollector) (ref : String), True → Bounded ref →
      Ensures ((collectorTraversal document).step collector ref) fun result =>
        True ∧ ∀ child ∈ result.2, Bounded child := fun collector ref _ h =>
    (visit_ensures hall h collector).bind fun _ _ =>
      (childRefs_ensures hall h).bind fun _ hchildren => .pure ⟨trivial, hchildren⟩
  refine ((collectorTraversal document).run_ensures hstep ∅ {} ["#/body"] trivial ?_).bind
    fun _ _ => .pure trivial
  intro ref href
  rw [List.mem_singleton.mp href]
  exact bounded_body

end Access

/-! ### Deleted slots -/

/-- The slots that are to be deleted could be read from references. -/
def Deleted.Fits (deleted : Deleted) : Prop :=
  ∀ slot ∈ deleted, '/' ∉ (ofLex slot).1.toList ∧ 0 ≤ (ofLex slot).2 ∧ (ofLex slot).2 ≤ intMax

variable {document : Document}

theorem collectSubtrees_ensures (hall : document.AllRefs Bounded) {runRefs : List String}
    (hrun : ∀ ref ∈ runRefs, Bounded ref) :
  Ensures (collectSubtrees document runRefs) Deleted.Fits
  := by
  refine (subtreeTraversal document).run_ensures (fun deleted ref hdeleted h => ?_) ∅ ∅ runRefs
    (fun _ hslot => absurd hslot (Finset.notMem_empty _)) hrun
  refine (parseRefParts_fits h).bind fun parts hparts =>
    (childRefs_ensures hall h).bind fun children hchildren => .pure ⟨?_, hchildren⟩
  dsimp only
  split
  case isTrue => exact hdeleted
  case isFalse harena =>
    intro slot hslot
    rcases Finset.mem_insert.mp hslot with rfl | hslot
    · rcases hparts with rfl | ⟨hlow, hhigh, hslash⟩
      · exact absurd rfl harena
      · exact ⟨hslash, hlow, hhigh⟩
    · exact hdeleted slot hslot

/-- The slots deleted in an arena, told from each other by their indices. -/
theorem Deleted.find_eq_some {deleted : Deleted} {arena : String} {indices : List ℤ}
    (h : deleted.find arena = some indices) :
  indices.Nodup ∧ ∀ index ∈ indices, toLex (arena, index) ∈ deleted
  := by
  unfold Deleted.find at h
  have hslots : ∀ slot ∈ (deleted.sort (· ≤ ·)).filter (fun slot => (ofLex slot).1 = arena),
      slot ∈ deleted ∧ slot = toLex (arena, (ofLex slot).2) := by
    intro slot hslot
    obtain ⟨hslot, harena⟩ := mem_filter.mp hslot
    refine ⟨(Finset.mem_sort _).mp hslot, ?_⟩
    rw [← of_decide_eq_true harena]
    rfl
  have hnodup := (Finset.sort_nodup deleted (· ≤ ·)).filter fun slot => (ofLex slot).1 = arena
  generalize (deleted.sort (· ≤ ·)).filter (fun slot => (ofLex slot).1 = arena) = slots
    at h hslots hnodup
  have heq : indices = slots.map fun slot => (ofLex slot).2 := by
    cases slots with
    | nil => cases h
    | cons slot slots => exact (Option.some.inj h).symm
  subst heq
  refine ⟨hnodup.map_on fun slot hslot other hother hsame => ?_, fun index hindex => ?_⟩
  · rw [(hslots slot hslot).2, (hslots other hother).2, hsame]
  · obtain ⟨slot, hslot, rfl⟩ := mem_map.mp hindex
    obtain ⟨hmem, heq⟩ := hslots slot hslot
    rwa [← heq]

/-! ### Changes of a document -/

section Changes

variable {p : String → Prop} {document : Document}

theorem forall_mem_refs {node : Node} :
  (∀ ref ∈ node.refs, p ref) ↔ p node.selfRef ∧ (∀ ref ∈ node.parent, p ref) ∧
    (∀ ref ∈ node.children, p ref) ∧ (∀ ref ∈ node.comments, p ref) ∧
      (∀ ref ∈ node.captions, p ref) ∧ (∀ ref ∈ node.references, p ref) ∧
        (∀ ref ∈ node.footnotes, p ref) ∧ ∀ cell ∈ node.cellRefs, ∀ ref ∈ cell, p ref
  := by
  simp only [Node.refs, forall_mem_cons, forall_mem_append, and_assoc,
    Option.mem_toList, reduceOption_mem_iff, Option.mem_def]
  refine and_congr_right fun _ => and_congr_right fun _ => and_congr_right fun _ =>
    and_congr_right fun _ => and_congr_right fun _ => and_congr_right fun _ =>
      and_congr_right fun _ => ⟨?_, ?_⟩
  · rintro h cell hcell ref rfl
    exact h ref hcell
  · exact fun h ref href => h _ href ref rfl

theorem allRefs_setNode (hall : document.AllRefs p) {node : Node} (hnode : ∀ ref ∈ node.refs, p ref)
    (slot : Slot) :
  (document.setNode node slot).AllRefs p
  := by
  intro other hother
  rcases mem_nodes_setNode hother with hold | rfl
  · exact hall other hold
  · exact hnode

theorem allRefs_setEntries (hall : document.AllRefs p) {arena : Arena}
    {entries : List (Entry arena)} (h : ∀ entry ∈ entries, entry ∈ document.entries arena) :
  (document.setEntries arena entries).AllRefs p
  := by
  intro node hnode
  rcases mem_cons.mp hnode with rfl | hnode
  · exact hall _ body_mem_nodes
  · rcases mem_cons.mp hnode with rfl | hnode
    · exact hall _ furniture_mem_nodes
    · obtain ⟨arena', -, hmem⟩ := mem_flatMap.mp hnode
      obtain ⟨entry, hentry, rfl⟩ := mem_map.mp hmem
      by_cases heq : arena' = arena
      · subst heq
        simp only [setEntries, Function.update_self] at hentry
        exact hall _ (mem_nodes_of_mem_entries (h entry hentry))
      · simp only [setEntries, Function.update_of_ne heq] at hentry
        exact hall _ (mem_nodes_of_mem_entries hentry)

end Changes

/-! ### Indices that move down -/

/-- At most so many slots lie at or below an index. -/
theorem countP_le_index {indices : List ℤ} (hnodup : indices.Nodup)
    (hlow : ∀ deleted ∈ indices, 0 ≤ deleted) {index : ℤ} (hindex : 0 ≤ index) :
  (indices.countP fun deleted => deleted ≤ index : ℤ) ≤ index + 1
  := by
  rw [countP_eq_length_filter, ← toFinset_card_of_nodup (hnodup.filter _)]
  have hsubset : (indices.filter fun deleted => deleted ≤ index).toFinset ⊆
      Finset.Icc 0 index := by
    intro deleted hmem
    obtain ⟨hmem, hle⟩ := mem_filter.mp (mem_toFinset.mp hmem)
    exact Finset.mem_Icc.mpr ⟨hlow deleted hmem, of_decide_eq_true hle⟩
  have hcard := Finset.card_le_card hsubset
  rw [Int.card_Icc] at hcard
  omega

/-- The index moves down by the number of deleted slots at or below it. -/
theorem foldlM_delta {index delta : ℤ} {indices : List ℤ} (hdelta : delta ≤ 0)
    (h : -intMax - 1 ≤ delta - (indices.countP fun deleted => deleted ≤ index : ℕ)) :
  indices.foldlM (fun (delta : ℤ) deleted =>
      if deleted ≤ index then int (delta - 1) else .ok delta) delta =
    .ok (delta - (indices.countP fun deleted => deleted ≤ index : ℕ))
  := by
  induction indices generalizing delta with
  | nil => simp [pure, Except.pure]
  | cons deleted indices ih =>
    rw [foldlM_cons]
    by_cases hle : deleted ≤ index
    · rw [countP_cons_of_pos (by simpa using hle)] at h ⊢
      rw [if_pos hle, int_eq_ok (by omega) (by unfold intMax; omega), ok_bind,
        ih (by omega) (by omega)]
      congr 1
      omega
    · rw [countP_cons_of_neg (by simpa using hle)] at h ⊢
      rw [if_neg hle, ok_bind, ih hdelta h]

section Deletion

variable {deleted : Deleted} (hdeleted : deleted.Fits)
include hdeleted

theorem unlinkFromParents_ensures (hall : document.AllRefs Bounded) :
  Ensures (unlinkFromParents document deleted) (Document.AllRefs Bounded)
  := by
  refine Ensures.foldlM hall fun slot hslot document hall => ?_
  obtain ⟨hslash, -, hhigh⟩ := hdeleted slot ((Finset.mem_sort _).mp hslot)
  unfold unlinkFromParent
  refine (nodeFields_ensures (bounded_refOf hslash hhigh)).bind fun node hnode => ?_
  split
  case h_1 => exact .pure hall
  case h_2 parent hparent =>
    obtain ⟨node, rfl, hparent⟩ := Option.bind_eq_some_iff.mp hparent
    have hbounded := hall node (hnode node rfl) parent (mem_refs_of_parent hparent)
    refine (resolve_ensures hbounded).bind fun found hfound => ?_
    cases found with
    | none => exact .pure hall
    | some owner =>
      refine (hfound owner rfl).bind fun node hnode => .pure (allRefs_setNode hall ?_ owner)
      obtain ⟨hself, hparent, hchildren, hrest⟩ := forall_mem_refs.mp (hall node hnode)
      exact forall_mem_refs.mpr
        ⟨hself, hparent, fun ref href => hchildren ref (mem_of_mem_erase href), hrest⟩

omit hdeleted in
theorem eraseDescending_ensures {α : Type} (entries : List α) (indices : List ℤ) :
  Ensures (eraseDescending entries indices) fun result => ∀ entry ∈ result, entry ∈ entries
  := by
  refine Ensures.foldlM (fun _ h => h) fun index _ rest hrest => ?_
  unfold eraseEntry
  split
  case isFalse => exact .pure hrest
  case isTrue hrange =>
    exact (getEntry_ensures hrange.1 hrange.2).bind fun _ _ =>
      .pure fun entry hentry => hrest entry (mem_of_mem_eraseIdx hentry)

omit hdeleted in
theorem deleteArenaEntries_ensures (hall : document.AllRefs Bounded) (arena : Arena) :
  Ensures (deleteArenaEntries deleted document arena) (Document.AllRefs Bounded)
  := by
  unfold deleteArenaEntries
  split
  case h_1 => exact .pure hall
  case h_2 indices _ =>
    exact (eraseDescending_ensures _ indices).bind fun entries hentries =>
      .pure (allRefs_setEntries hall hentries)

/-! ### Renumbering -/

theorem renumberedRef_ensures (h : Bounded ref) :
  Ensures (renumberedRef deleted ref) Bounded
  := by
  refine (parseRefParts_fits h).bind fun parts hparts => ?_
  split
  case isTrue => exact .pure h
  case isFalse harena =>
    split
    case h_1 => exact .pure h
    case h_2 indices hfind =>
      obtain ⟨hnodup, hmem⟩ := Deleted.find_eq_some hfind
      have hlow : ∀ index ∈ indices, 0 ≤ index := fun index hindex =>
        (hdeleted _ (hmem index hindex)).2.1
      rcases hparts with rfl | ⟨hindex, hhigh, hslash⟩
      · exact absurd rfl harena
      · have hcount := countP_le_index hnodup hlow hindex
        rw [foldlM_delta le_rfl (by omega), ok_bind, int_eq_ok (by omega) (by omega), ok_bind]
        exact .pure (bounded_refOf hslash (by omega))

theorem filterAndRenumber_ensures (runRefs : List String) {refs : List String}
    (h : ∀ ref ∈ refs, Bounded ref) :
  Ensures (filterAndRenumber deleted runRefs refs) fun result => ∀ ref ∈ result, Bounded ref
  := Ensures.mapM fun ref href =>
    renumberedRef_ensures hdeleted (h ref (mem_filter.mp href).1)

theorem renumberNode_ensures (runRefs : List String) {node : Node}
    (h : ∀ ref ∈ node.refs, Bounded ref) :
  Ensures (renumberNode deleted runRefs node) fun result => ∀ ref ∈ result.refs, Bounded ref
  := by
  obtain ⟨hself, hparent, hchildren, hcomments, hcaptions, hreferences, hfootnotes, hcells⟩ :=
    forall_mem_refs.mp h
  have hrenumber : ∀ ref, Bounded ref → Ensures (renumberedRef deleted ref) Bounded :=
    fun _ => renumberedRef_ensures hdeleted
  refine (Ensures.mapM fun ref href => hrenumber ref (hcomments ref href)).bind fun _ hcomments =>
    (filterAndRenumber_ensures hdeleted runRefs hcaptions).bind fun _ hcaptions =>
      (filterAndRenumber_ensures hdeleted runRefs hreferences).bind fun _ hreferences =>
        (filterAndRenumber_ensures hdeleted runRefs hfootnotes).bind fun _ hfootnotes =>
          (Ensures.mapM fun cell hcell => Ensures.optionMapM fun ref href =>
            hrenumber ref (hcells cell hcell ref href)).bind fun _ hcells =>
              (Ensures.optionMapM fun ref href => hrenumber ref (hparent ref href)).bind
                fun _ hparent => (hrenumber _ hself).bind fun _ hself =>
                  (filterAndRenumber_ensures hdeleted runRefs hchildren).bind fun _ hchildren => .pure ?_
  exact forall_mem_refs.mpr
    ⟨hself, hparent, hchildren, hcomments, hcaptions, hreferences, hfootnotes, hcells⟩

theorem renumberStep_ensures (runRefs : List String) (hall : document.AllRefs Bounded)
    (h : Bounded ref) :
  Ensures (renumberStep deleted runRefs document ref) fun result =>
    result.1.AllRefs Bounded ∧ ∀ child ∈ result.2, Bounded child
  := by
  refine (resolve_ensures h).bind fun found hfound => ?_
  cases found with
  | none => exact .pure ⟨hall, fun _ hchild => absurd hchild not_mem_nil⟩
  | some slot =>
    refine (hfound slot rfl).bind fun node hnode =>
      (renumberNode_ensures hdeleted runRefs (hall node hnode)).bind fun renumbered hrefs =>
        .pure ⟨allRefs_setNode hall hrefs slot, ?_⟩
    exact (forall_mem_refs.mp hrefs).2.2.1

end Deletion

/-- The deletion of a run faults nowhere. -/
theorem deleteRunSubtrees_ensures (hall : document.AllRefs Bounded) {runRefs : List String}
    (hrun : ∀ ref ∈ runRefs, Bounded ref) :
  Ensures (deleteRunSubtrees document runRefs) fun result => result.1.AllRefs Bounded
  := by
  refine (collectSubtrees_ensures hall hrun).bind fun deleted hdeleted =>
    (unlinkFromParents_ensures hdeleted hall).bind fun document hall =>
      (Ensures.foldlM hall fun arena _ document hall => deleteArenaEntries_ensures hall arena).bind
        fun document hall => ?_
  refine ((renumberTraversal deleted runRefs).run_ensures (fun document ref hall h =>
    renumberStep_ensures hdeleted runRefs hall h) ∅ document ["#/body"] hall ?_).bind
      fun document hall => .pure hall
  intro ref href
  rw [mem_singleton.mp href]
  exact bounded_body

/-! ### The whole document -/

/-- Every reference of a document is read exactly, and no pass over it faults. -/
structure StaysInArenas (document : Document) : Prop where
  reads : document.AllRefs ReadExactly
  nodeFields : document.AllRefs fun ref => Ensures (document.nodeFields ref) fun _ => True
  isListGroupRef : document.AllRefs fun ref =>
    Ensures (document.isListGroupRef ref) fun _ => True
  hasMisplacedListItems : Ensures (hasMisplacedListItems document) fun _ => True
  collectRuns : Ensures (collectRuns document) fun _ => True
  deleteRunSubtrees : ∀ run : List ℤ, (∀ index ∈ run, index ≤ intMax) →
    Ensures (deleteRunSubtrees document (run.map (refOf Arena.texts.name))) fun _ => True

/-- A list item whose parent has more digits than an `int` holds. -/
def longParent : Document where
  body := ⟨{ selfRef := "#/body" }, {}⟩
  furniture := ⟨{ selfRef := "#/furniture" }, {}⟩
  entries
    | .texts =>
      [⟨{ selfRef := "#/texts/0", parent := some "#/groups/4294967295" }, { itemCase := .listItem }⟩]
    | _ => []

end GRParse.LoadNorm
