import GRParse.Document.Renaming
import GRParse.Lib.Lists

/-!
# Removing empty groups

A group without children that no item names as its parent is removed, unless it is a root or hangs
from nothing.  The groups that stay move up, and every reference follows: to its group in the new
slot, or from a removed group to the nearest ancestor that stays.  This may leave another group
empty, so that rounds are made until none is.
-/

namespace GRParse

open Containers Lists Protobuf List FullDocument Finmap

/-! ### The repair -/

/-- `group_ref`: a group that carries no reference has that of its slot. -/
def GroupItem.selfRefAt (group : GroupItem) (index : ℕ) : String :=
  if group.selfRef = "" then slotRef kGroups index else group.selfRef

/-- The references that nodes name as their parents. -/
def FullDocument.claimed (document : FullDocument) : Finset String :=
  (document.nodes.filterMap fun node => node.parent.map (·.ref)).toFinset

/-- The empty groups, and what they hang from. -/
def FullDocument.emptyGroups (document : FullDocument) : RefMap :=
  .emplaceAll (document.groups.zipIdx.filterMap fun (group, index) =>
    if group.children.isEmpty ∧ group.selfRefAt index ∉ document.claimed then
      group.parent.map fun parent => (group.selfRefAt index, parent.ref)
    else none) ∅

/-- The groups that stay, with the slots they had. -/
def keptGroups (removed : RefMap) (groups : List GroupItem) : List (GroupItem × ℕ) :=
  groups.zipIdx.filter fun (group, index) => group.selfRefAt index ∉ removed

/-- What has some names moves up to the slots of an arena. -/
def renumber (start : String) (names : List String) : RefMap :=
  .insertAll (names.zipIdx.filterMap fun (name, next) =>
    if name = slotRef start next then none else some (name, slotRef start next)) ∅

/-- The renumbering of a round: a removed group is renamed to what it hung from. -/
def groupRenumbering (removed : RefMap) (groups : List GroupItem) : RefMap :=
  renumberRetired removed
    (renumber kGroups ((keptGroups removed groups).map fun (group, index) => group.selfRefAt index))

/-- A round of the repair: the empty groups leave the arena. -/
def FullDocument.removeGroups (document : FullDocument) (removed : RefMap) : FullDocument :=
  let pruned := document.mapNodes (·.pruneChildren removed.keys)
  ({ pruned with groups := (keptGroups removed pruned.groups).map (·.1) } :
    FullDocument).rewriteReferences (groupRenumbering removed pruned.groups)

variable {document : FullDocument} {ref : String}

theorem mem_emptyGroups :
  ref ∈ document.emptyGroups ↔ ∃ (index : ℕ) (group : GroupItem) (parent : RefItem),
    document.groups[index]? = some group ∧ group.selfRefAt index = ref ∧
      group.parent = some parent ∧ group.children = [] ∧ ref ∉ document.claimed
  := by
  rw [emptyGroups, Map.mem_emplaceAll]
  simp only [notMem_empty, false_or, mem_filterMap]
  constructor
  · rintro ⟨entry, ⟨⟨group, index⟩, hgroup, hentry⟩, rfl⟩
    split at hentry
    case isFalse => cases hentry
    case isTrue hempty =>
      obtain ⟨parent, hparent, rfl⟩ := Option.map_eq_some_iff.mp hentry
      exact ⟨index, group, parent, mk_mem_zipIdx_iff_getElem?.mp hgroup, rfl, hparent,
        isEmpty_iff.mp hempty.1, hempty.2⟩
  · rintro ⟨index, group, parent, hgroup, rfl, hparent, hchildren, hclaimed⟩
    refine ⟨(group.selfRefAt index, parent.ref), ⟨(group, index),
      mk_mem_zipIdx_iff_getElem?.mpr hgroup, ?_⟩, rfl⟩
    rw [if_pos ⟨isEmpty_iff.mpr hchildren, hclaimed⟩, hparent]
    rfl

theorem length_groups_removeGroups (removed : RefMap) :
  (document.removeGroups removed).groups.length =
    (keptGroups removed
      (document.mapNodes (·.pruneChildren removed.keys)).groups).length
  := by
  simp [removeGroups, rewriteReferences, Document.rewriteReferences]

/-- A round that removes a group leaves fewer. -/
theorem length_removeGroups_lt (h : document.emptyGroups ≠ ∅) :
  (document.removeGroups document.emptyGroups).groups.length < document.groups.length
  := by
  obtain ⟨ref, href⟩ : ∃ ref, ref ∈ document.emptyGroups := by
    by_contra hnone
    push Not at hnone
    apply h
    apply ext_lookup
    intro ref
    rw [lookup_eq_none.mpr (hnone ref), lookup_empty]
  obtain ⟨index, group, -, hgroup, rfl, -⟩ := mem_emptyGroups.mp href
  rw [length_groups_removeGroups]
  have hmem : (⟨group.toNodeItem.pruneChildren document.emptyGroups.keys⟩, index) ∈
      (document.mapNodes (·.pruneChildren document.emptyGroups.keys)).groups.zipIdx := by
    rw [mk_mem_zipIdx_iff_getElem?]
    simp [mapNodes, hgroup]
  have hself : GroupItem.selfRefAt ⟨group.toNodeItem.pruneChildren document.emptyGroups.keys⟩ index =
      group.selfRefAt index := rfl
  have hlt : (keptGroups document.emptyGroups
      (document.mapNodes (·.pruneChildren document.emptyGroups.keys)).groups).length <
        (document.mapNodes (·.pruneChildren document.emptyGroups.keys)).groups.zipIdx.length :=
    length_filter_lt_length_iff_exists.mpr ⟨_, hmem, by simpa [hself] using href⟩
  simpa [mapNodes] using hlt

/-- `remove_empty_groups`. -/
def removeEmptyGroups (document : FullDocument) : FullDocument × ℕ :=
  if document.emptyGroups = ∅ then (document.mapNodes fun node => node, 0)
  else
    let (result, count) := removeEmptyGroups (document.removeGroups document.emptyGroups)
    (result, document.emptyGroups.keys.card + count)
termination_by document.groups.length
decreasing_by exact length_removeGroups_lt ‹_›

/-! ### What the repair does -/

/-- Every group carries the reference to its slot. -/
def NamedGroups (groups : List GroupItem) : Prop :=
  ∀ index group, groups[index]? = some group → group.selfRef = slotRef kGroups index

/-- The document with the groups in some slots only. -/
def FullDocument.keepGroups (kept : List ℕ) (document : FullDocument) : FullDocument :=
  { document with groups := kept.filterMap (document.groups[·]?) }

/-- The references to the groups that are not kept. -/
def FullDocument.goneRefs (document : FullDocument) (kept : List ℕ) : Finset String :=
  (((List.range document.groups.length).filter (· ∉ kept)).map (slotRef kGroups)).toFinset

/-- The nearest ancestor that is kept, by the parents of the groups that are not: another group, or
what no group is called. -/
inductive NearestKept (document : FullDocument) (kept : List ℕ) : String → String → Prop
  | here {ref : String} (stays : ref ∉ document.goneRefs kept) : NearestKept document kept ref ref
  | up {index : ℕ} {group : GroupItem} {parent : RefItem} {ancestor : String}
      (hgroup : document.groups[index]? = some group) (gone : index ∉ kept)
      (hparent : group.parent = some parent)
      (rest : NearestKept document kept parent.ref ancestor) :
      NearestKept document kept (slotRef kGroups index) ancestor

/-- Groups have been removed.  Those that are kept are in order, and no node lists another one as a
child.  A reference to a group that is kept names that group in its new slot; one to a group that
is not names its nearest kept ancestor; and any other reference is as it was. -/
structure Removal (document : FullDocument) (kept : List ℕ) (mapping : RefMap)
    (result : FullDocument) : Prop where
  sublist : kept.Sublist (List.range document.groups.length)
  result : result =
    ((document.mapNodes (·.pruneChildren (document.goneRefs kept))).rewriteReferences
      mapping).keepGroups kept
  keeps : ∀ next index, kept[next]? = some index →
    mapping.rename (slotRef kGroups index) = slotRef kGroups next
  redirects : ∀ ref, ∃ ancestor, NearestKept document kept ref ancestor ∧
    mapping.rename ref = mapping.rename ancestor
  others : ∀ ref, (∀ index < document.groups.length, ref ≠ slotRef kGroups index) →
    mapping.rename ref = ref

variable {kept : List ℕ}

theorem mem_goneRefs :
  ref ∈ document.goneRefs kept ↔
    ∃ index < document.groups.length, index ∉ kept ∧ slotRef kGroups index = ref
  := by
  simp [goneRefs, and_assoc]

theorem slotRef_mem_goneRefs {index : ℕ} (hindex : index < document.groups.length) :
  slotRef kGroups index ∈ document.goneRefs kept ↔ index ∉ kept
  := by
  rw [mem_goneRefs]
  constructor
  · rintro ⟨other, -, hgone, heq⟩
    rwa [← slotRef_injective _ heq]
  · exact fun hgone => ⟨index, hindex, hgone, rfl⟩

theorem NearestKept.trans {kept' : List ℕ} (hkept : ∀ index ∈ kept', index ∈ kept)
    {ref middle ancestor : String} (h : NearestKept document kept ref middle)
    (h' : NearestKept document kept' middle ancestor) :
  NearestKept document kept' ref ancestor
  := by
  induction h with
  | here => exact h'
  | up hgroup gone hparent rest ih =>
    exact .up hgroup (fun hmem => gone (hkept _ hmem)) hparent (ih h')

theorem NearestKept.stays {ref ancestor : String} (h : NearestKept document kept ref ancestor) :
  ancestor ∉ document.goneRefs kept
  := by
  induction h with
  | here stays => exact stays
  | up _ _ _ _ ih => exact ih

/-! ### Renumbering -/

section

variable {start : String} {names : List String}

theorem rename_renumber (hnodup : names.Nodup) {name : String} {next : ℕ}
    (h : names[next]? = some name) :
  (renumber start names).rename name = slotRef start next
  := by
  have hunique : ∀ next', names[next']? = some name → next' = next := by
    intro next' hnext'
    obtain ⟨hlt, heq⟩ := List.getElem?_eq_some_iff.mp h
    obtain ⟨hlt', heq'⟩ := List.getElem?_eq_some_iff.mp hnext'
    exact hnodup.getElem_inj_iff.mp (heq'.trans heq.symm)
  rw [RefMap.rename, renumber]
  by_cases hsame : name = slotRef start next
  · rw [Map.lookup_insertAll_of_notMem, hsame]
    · rfl
    · intro entry hentry hkey
      obtain ⟨⟨other, next'⟩, hmem, hentry⟩ := List.mem_filterMap.mp hentry
      dsimp only at hentry
      split at hentry
      next => cases hentry
      next hne =>
        obtain rfl := Option.some.inj hentry
        obtain rfl : other = name := hkey
        rw [hunique next' (List.mk_mem_zipIdx_iff_getElem?.mp hmem)] at hne
        exact hne hsame
  · rw [Option.getD_eq_iff]
    left
    apply Map.lookup_insertAll_of_mem
    · refine List.mem_filterMap.mpr ⟨(name, next), List.mk_mem_zipIdx_iff_getElem?.mpr h, ?_⟩
      exact if_neg hsame
    · intro entry hentry hkey
      obtain ⟨⟨other, next'⟩, hmem, hentry⟩ := List.mem_filterMap.mp hentry
      dsimp only at hentry
      split at hentry
      next => cases hentry
      next =>
        obtain rfl := Option.some.inj hentry
        obtain rfl : other = name := hkey
        rw [hunique next' (List.mk_mem_zipIdx_iff_getElem?.mp hmem)]

theorem rename_renumber_of_notMem (h : ref ∉ names) :
  (renumber start names).rename ref = ref
  := by
  rw [RefMap.rename, renumber, Map.lookup_insertAll_of_notMem]
  · rfl
  · intro entry hentry hkey
    obtain ⟨⟨name, next⟩, hmem, hentry⟩ := mem_filterMap.mp hentry
    dsimp only at hentry
    split at hentry
    next => cases hentry
    next =>
      obtain rfl := Option.some.inj hentry
      obtain rfl : name = ref := hkey
      exact h (mem_of_getElem? (mk_mem_zipIdx_iff_getElem?.mp hmem))

end

/-! ### Rounds in a row -/

/-- The renumbering of two rounds. -/
def chainRenumbering (count : ℕ) (first second : RefMap) : RefMap :=
  .insertAll ((List.range count).map fun index =>
    (slotRef kGroups index, second.rename (first.rename (slotRef kGroups index)))) ∅

theorem rename_chainRenumbering {count : ℕ} {first second : RefMap}
    (h : ∀ ref, (∀ index < count, ref ≠ slotRef kGroups index) →
      second.rename (first.rename ref) = ref) (ref : String) :
  second.rename (first.rename ref) = (chainRenumbering count first second).rename ref
  := by
  rw [RefMap.rename.eq_1 (chainRenumbering count first second), chainRenumbering]
  by_cases href : ∃ index < count, slotRef kGroups index = ref
  · obtain ⟨index, hindex, rfl⟩ := href
    have hmem : (slotRef kGroups index, second.rename (first.rename (slotRef kGroups index))) ∈
        (range count).map fun index =>
          (slotRef kGroups index, second.rename (first.rename (slotRef kGroups index))) :=
      mem_map.mpr ⟨index, mem_range.mpr hindex, rfl⟩
    rw [Map.lookup_insertAll_of_mem hmem]
    · rfl
    · intro entry hentry hkey
      obtain ⟨other, -, rfl⟩ := mem_map.mp hentry
      rw [slotRef_injective _ hkey]
  · push Not at href
    rw [Map.lookup_insertAll_of_notMem]
    · exact h ref fun index hindex heq => href index hindex heq.symm
    · intro entry hentry hkey
      obtain ⟨other, hother, rfl⟩ := mem_map.mp hentry
      exact href other (mem_range.mp hother) hkey

theorem mapNodes_keepGroups (document : FullDocument) (kept : List ℕ) (f : NodeItem → NodeItem) :
  (document.keepGroups kept).mapNodes f = (document.mapNodes f).keepGroups kept
  := by
  simp only [keepGroups, mapNodes, map_filterMap, getElem?_map]

theorem rewriteReferences_keepGroups (document : FullDocument) (kept : List ℕ) (mapping : RefMap) :
  (document.keepGroups kept).rewriteReferences mapping =
    (document.rewriteReferences mapping).keepGroups kept
  := by
  simp only [keepGroups, rewriteReferences, Document.rewriteReferences,
    map_filterMap, getElem?_map]

theorem keepGroups_keepGroups (hkept : ∀ index ∈ kept, index < document.groups.length)
    (kept' : List ℕ) :
  (document.keepGroups kept).keepGroups kept' =
    document.keepGroups (kept'.filterMap (kept[·]?))
  := by
  simp only [keepGroups, filterMap_filterMap, getElem?_filterMap_positions hkept]

namespace Removal

variable {mapping : RefMap} {result : FullDocument}

theorem lt_length (h : Removal document kept mapping result) :
  ∀ index ∈ kept, index < document.groups.length
  := fun _ hindex => mem_range.mp (h.sublist.subset hindex)

theorem getElem?_groups (h : Removal document kept mapping result) (next : ℕ) :
  result.groups[next]? = kept[next]?.bind fun index =>
    document.groups[index]?.map fun group =>
      (⟨group.toNodeItem.pruneChildren (document.goneRefs kept)⟩ : GroupItem).rewriteRefs mapping
  := by
  have hlt : ∀ index ∈ kept, index < (((document.mapNodes
      (·.pruneChildren (document.goneRefs kept))).rewriteReferences mapping).groups).length := by
    simpa [mapNodes, rewriteReferences, Document.rewriteReferences]
      using h.lt_length
  rw [h.result, keepGroups, getElem?_filterMap_positions hlt]
  simp [mapNodes, rewriteReferences, Document.rewriteReferences,
    Function.comp_def]

theorem length_groups (h : Removal document kept mapping result) :
  result.groups.length = kept.length
  := by
  rw [h.result, keepGroups]
  apply length_filterMap_positions
  simpa [mapNodes, rewriteReferences, Document.rewriteReferences]
    using h.lt_length

theorem nodup (h : Removal document kept mapping result) :
  kept.Nodup
  := h.sublist.nodup nodup_range

/-- The groups that are kept carry the references to their new slots. -/
theorem named (h : Removal document kept mapping result) (hnamed : NamedGroups document.groups) :
  NamedGroups result.groups
  := by
  intro next group hgroup
  rw [h.getElem?_groups] at hgroup
  obtain ⟨index, hindex, hgroup⟩ := Option.bind_eq_some_iff.mp hgroup
  obtain ⟨old, hold, rfl⟩ := Option.map_eq_some_iff.mp hgroup
  show mapping.rename old.selfRef = _
  rw [hnamed index old hold, h.keeps next index hindex]

/-- A reference that stays and comes to name a group named the one that is in its slot now. -/
theorem eq_slotRef_of_rename (h : Removal document kept mapping result)
    (hstays : ref ∉ document.goneRefs kept) {next : ℕ} (hnext : next < kept.length)
    (href : mapping.rename ref = slotRef kGroups next) :
  ref = slotRef kGroups kept[next]
  := by
  by_cases hgroup : ∃ index < document.groups.length, ref = slotRef kGroups index
  · obtain ⟨index, hindex, rfl⟩ := hgroup
    rw [slotRef_mem_goneRefs hindex, not_not] at hstays
    obtain ⟨next', hnext', rfl⟩ := getElem_of_mem hstays
    rw [h.keeps next' _ (getElem?_eq_getElem hnext')] at href
    obtain rfl := slotRef_injective _ href
    rfl
  · push Not at hgroup
    rw [h.others ref hgroup] at href
    have hlength := h.sublist.length_le
    rw [length_range] at hlength
    exact absurd href (hgroup next (by omega))

/-- No round at all: the nodes that were not set are set. -/
theorem refl (document : FullDocument) :
  Removal document (List.range document.groups.length) ∅ (document.mapNodes fun node => node)
  := by
  have hgone : document.goneRefs (List.range document.groups.length) = ∅ := by
    rw [Finset.eq_empty_iff_forall_notMem]
    intro ref href
    obtain ⟨index, hindex, hout, -⟩ := mem_goneRefs.mp href
    exact hout (List.mem_range.mpr hindex)
  have hempty : ∀ ref, RefMap.rename ∅ ref = ref := fun _ =>
    RefMap.rename_of_notMem notMem_empty
  constructor
  case sublist => exact List.Sublist.refl _
  case result =>
    rw [hgone, rewriteReferences_empty]
    have hlength : document.groups.length = (document.mapNodes fun node => node).groups.length := by
      simp [mapNodes]
    rw [hlength, keepGroups, filterMap_positions_range]
  case keeps =>
    intro next index hindex
    obtain ⟨hlt, rfl⟩ := List.getElem?_eq_some_iff.mp hindex
    rw [hempty, List.getElem_range]
  case redirects =>
    intro ref
    refine ⟨ref, .here ?_, rfl⟩
    rw [hgone]
    exact Finset.notMem_empty ref
  case others => exact fun ref _ => hempty ref

section

variable {middle : FullDocument} {kept' : List ℕ} {mapping' : RefMap}

/-- A removed group names its nearest ancestor that both rounds keep. -/
theorem nearestKept_trans (h : Removal document kept mapping middle) {ref ancestor : String}
    (hnearest : NearestKept middle kept' ref ancestor) {name : String}
    (hname : name ∉ document.goneRefs kept) (hrename : mapping.rename name = ref) :
  ∃ first, NearestKept document (kept'.filterMap (kept[·]?)) name first ∧
    mapping'.rename (mapping.rename first) = mapping'.rename ancestor
  := by
  have hlength := h.length_groups
  induction hnearest generalizing name with
  | @here ref stays =>
    refine ⟨name, .here fun hgone => ?_, by rw [hrename]⟩
    obtain ⟨index, hindex, hout, rfl⟩ := mem_goneRefs.mp hgone
    rw [slotRef_mem_goneRefs hindex, not_not] at hname
    obtain ⟨next, hnext, rfl⟩ := List.getElem_of_mem hname
    rw [h.keeps next _ (List.getElem?_eq_getElem hnext)] at hrename
    rw [← hrename, slotRef_mem_goneRefs (by omega), not_not] at stays
    exact hout (List.mem_filterMap.mpr ⟨next, stays, List.getElem?_eq_getElem hnext⟩)
  | @up next group parent ancestor hgroup gone hparent rest ih =>
    rw [h.getElem?_groups] at hgroup
    obtain ⟨index, hindex, hgroup⟩ := Option.bind_eq_some_iff.mp hgroup
    obtain ⟨old, hold, rfl⟩ := Option.map_eq_some_iff.mp hgroup
    obtain ⟨oldParent, holdParent, rfl⟩ := Option.map_eq_some_iff.mp hparent
    obtain ⟨hnext, rfl⟩ := List.getElem?_eq_some_iff.mp hindex
    obtain rfl := h.eq_slotRef_of_rename hname hnext hrename
    obtain ⟨middleName, hmiddle, hmiddleRename⟩ := h.redirects oldParent.ref
    obtain ⟨first, hfirst, heq⟩ := ih hmiddle.stays hmiddleRename.symm
    refine ⟨first, .up hold ?_ holdParent (hmiddle.trans ?_ hfirst), heq⟩
    · intro hmem
      obtain ⟨other, hother, hsame⟩ := List.mem_filterMap.mp hmem
      obtain ⟨hlt, hsame⟩ := List.getElem?_eq_some_iff.mp hsame
      obtain rfl := h.nodup.getElem_inj_iff.mp hsame
      exact gone hother
    · intro index hmem
      obtain ⟨other, -, hsame⟩ := List.mem_filterMap.mp hmem
      exact List.mem_of_getElem? hsame

/-- Two removals in a row are one. -/
theorem trans (h : Removal document kept mapping middle)
    (h' : Removal middle kept' mapping' result) :
  Removal document (kept'.filterMap (kept[·]?))
    (chainRenumbering document.groups.length mapping mapping') result
  := by
  have hlength := h.length_groups
  have hcount : kept.length ≤ document.groups.length := by
    simpa using h.sublist.length_le
  have hlt : ∀ next ∈ kept', next < kept.length := fun next hnext => by
    have := h'.lt_length next hnext
    omega
  have hothers : ∀ ref, (∀ index < document.groups.length, ref ≠ slotRef kGroups index) →
      mapping'.rename (mapping.rename ref) = ref := by
    intro ref href
    rw [h.others ref href, h'.others ref fun index hindex => href index (by omega)]
  have hrename := rename_chainRenumbering hothers
  have hchained : Chained (document.goneRefs kept) (middle.goneRefs kept')
      (document.goneRefs (kept'.filterMap (kept[·]?))) mapping mapping'
      (chainRenumbering document.groups.length mapping mapping') := by
    refine ⟨hrename, fun ref => ?_⟩
    by_cases hgroup : ∃ index < document.groups.length, ref = slotRef kGroups index
    · obtain ⟨index, hindex, rfl⟩ := hgroup
      rw [slotRef_mem_goneRefs hindex, slotRef_mem_goneRefs hindex]
      by_cases hmem : index ∈ kept
      · obtain ⟨next, hnext, rfl⟩ := List.getElem_of_mem hmem
        rw [h.keeps next _ (List.getElem?_eq_getElem hnext), slotRef_mem_goneRefs (by omega)]
        simp only [hmem, not_true_eq_false, false_or, not_iff_not]
        constructor
        · intro hboth
          obtain ⟨other, hother, hsame⟩ := List.mem_filterMap.mp hboth
          obtain ⟨hlt, hsame⟩ := List.getElem?_eq_some_iff.mp hsame
          rwa [← h.nodup.getElem_inj_iff.mp hsame]
        · exact fun hnext' =>
            List.mem_filterMap.mpr ⟨next, hnext', List.getElem?_eq_getElem hnext⟩
      · simp only [hmem, not_false_eq_true, true_or, iff_true]
        intro hboth
        obtain ⟨other, -, hsame⟩ := List.mem_filterMap.mp hboth
        exact hmem (List.mem_of_getElem? hsame)
    · push Not at hgroup
      have hnone : ∀ kept, ref ∉ document.goneRefs kept := fun kept hgone => by
        obtain ⟨index, hindex, -, heq⟩ := mem_goneRefs.mp hgone
        exact hgroup index hindex heq.symm
      have hnone' : ref ∉ middle.goneRefs kept' := fun hgone => by
        obtain ⟨index, hindex, -, heq⟩ := mem_goneRefs.mp hgone
        exact hgroup index (by omega) heq.symm
      rw [h.others ref hgroup]
      simp only [hnone, hnone', or_self]
  constructor
  case sublist =>
    have hrange : (kept'.filterMap (kept[·]?)).Sublist
        ((List.range kept.length).filterMap (kept[·]?)) := by
      rw [← hlength]
      exact h'.sublist.filterMap _
    rw [filterMap_positions_range] at hrange
    exact hrange.trans h.sublist
  case result =>
    have hinside : ∀ index ∈ kept, index < (((document.mapNodes
        (·.pruneChildren (document.goneRefs (kept'.filterMap (kept[·]?))))).rewriteReferences
          (chainRenumbering document.groups.length mapping mapping')).groups).length := by
      simpa [mapNodes, rewriteReferences, Document.rewriteReferences]
        using h.lt_length
    rw [h'.result]
    nth_rewrite 2 [h.result]
    rw [mapNodes_keepGroups, rewriteReferences_keepGroups, hchained.document,
      keepGroups_keepGroups hinside]
  case keeps =>
    intro next index hindex
    rw [getElem?_filterMap_positions hlt] at hindex
    obtain ⟨middleIndex, hmiddle, hindex⟩ := Option.bind_eq_some_iff.mp hindex
    rw [← hrename, h.keeps middleIndex index hindex, h'.keeps next middleIndex hmiddle]
  case redirects =>
    intro ref
    obtain ⟨name, hname, heq⟩ := h.redirects ref
    obtain ⟨ancestor, hancestor, heq'⟩ := h'.redirects (mapping.rename name)
    obtain ⟨first, hfirst, heq''⟩ := nearestKept_trans h hancestor hname.stays rfl
    refine ⟨first, hname.trans ?_ hfirst, ?_⟩
    · intro index hmem
      obtain ⟨other, -, hsame⟩ := List.mem_filterMap.mp hmem
      exact List.mem_of_getElem? hsame
    · rw [← hrename, ← hrename, heq, heq', heq'']
  case others =>
    intro ref href
    rw [← hrename, hothers ref href]

end

end Removal

/-! ### One round -/

/-- The slots of the groups that a round keeps. -/
def keptGroupSlots (removed : RefMap) (count : ℕ) : List ℕ :=
  (List.range count).filter fun index => slotRef kGroups index ∉ removed

theorem slotRef_kGroups_ne_empty (index : ℕ) :
  slotRef kGroups index ≠ ""
  := by
  intro h
  have hlist := congrArg String.toList h
  simp [kGroups] at hlist

theorem NamedGroups.selfRefAt_eq {groups : List GroupItem} (h : NamedGroups groups) {index : ℕ}
    {group : GroupItem} (hgroup : groups[index]? = some group) :
  group.selfRefAt index = slotRef kGroups index
  := by
  rw [GroupItem.selfRefAt, h index group hgroup, if_neg (slotRef_kGroups_ne_empty index)]

/-- What a list has in the slots that are chosen. -/
theorem map_filter_zipIdx {α : Type} (chosen : ℕ → Bool) (l : List α) :
  (l.zipIdx.filter fun entry => chosen entry.2).map (·.1) =
      ((List.range l.length).filter chosen).filterMap (l[·]?) ∧
    (l.zipIdx.filter fun entry => chosen entry.2).map (·.2) = (List.range l.length).filter chosen
  := by
  induction l using reverseRecOn with
  | nil => exact ⟨rfl, rfl⟩
  | append_singleton l a ih =>
    have hbefore : ((range l.length).filter chosen).filterMap ((l ++ [a])[·]?) =
        ((range l.length).filter chosen).filterMap (l[·]?) := by
      apply filterMap_congr
      intro index hindex
      rw [getElem?_append_left (mem_range.mp (mem_of_mem_filter hindex))]
    rw [zipIdx_append, filter_append, map_append, map_append, ih.1, ih.2,
      length_append, length_singleton, range_succ, filter_append,
      filterMap_append, hbefore]
    cases h : chosen l.length <;> simp [h]

section

variable (hnamed : NamedGroups document.groups)
include hnamed

theorem keptGroups_eq (removed : RefMap) :
  (keptGroups removed document.groups).map (·.1) =
      (keptGroupSlots removed document.groups.length).filterMap (document.groups[·]?) ∧
    (keptGroups removed document.groups).map (fun (group, index) => group.selfRefAt index) =
      (keptGroupSlots removed document.groups.length).map (slotRef kGroups)
  := by
  have hfilter : keptGroups removed document.groups = document.groups.zipIdx.filter fun entry =>
      slotRef kGroups entry.2 ∉ removed := by
    apply filter_congr
    rintro ⟨group, index⟩ hmem
    dsimp only
    rw [hnamed.selfRefAt_eq (mk_mem_zipIdx_iff_getElem?.mp hmem)]
  obtain ⟨hgroups, hslots⟩ := map_filter_zipIdx
    (fun index => decide (slotRef kGroups index ∉ removed)) document.groups
  rw [← hfilter] at hgroups hslots
  refine ⟨hgroups, ?_⟩
  rw [keptGroupSlots, ← hslots, map_map]
  apply map_congr_left
  rintro ⟨group, index⟩ hmem
  exact hnamed.selfRefAt_eq (mk_mem_zipIdx_iff_getElem?.mp (mem_of_mem_filter hmem))

theorem mem_emptyGroups_iff :
  ref ∈ document.emptyGroups ↔ ∃ (index : ℕ) (group : GroupItem) (parent : RefItem),
    document.groups[index]? = some group ∧ slotRef kGroups index = ref ∧
      group.parent = some parent ∧ group.children = [] ∧ ref ∉ document.claimed
  := by
  rw [mem_emptyGroups]
  constructor
  · rintro ⟨index, group, parent, hgroup, hself, hrest⟩
    exact ⟨index, group, parent, hgroup, by rw [← hnamed.selfRefAt_eq hgroup, hself], hrest⟩
  · rintro ⟨index, group, parent, hgroup, hself, hrest⟩
    exact ⟨index, group, parent, hgroup, by rw [hnamed.selfRefAt_eq hgroup, hself], hrest⟩

/-- A removed group is redirected to its parent. -/
theorem rename_emptyGroups {index : ℕ} {group : GroupItem} {parent : RefItem}
    (hgroup : document.groups[index]? = some group) (hparent : group.parent = some parent)
    (hremoved : slotRef kGroups index ∈ document.emptyGroups) :
  document.emptyGroups.rename (slotRef kGroups index) = parent.ref
  := by
  have hself := hnamed.selfRefAt_eq hgroup
  obtain ⟨index', group', parent', hgroup', hslot, -, hchildren, hclaimed⟩ :=
    (mem_emptyGroups_iff hnamed).mp hremoved
  obtain rfl := slotRef_injective _ hslot
  obtain rfl : group = group' := Option.some.inj (hgroup.symm.trans hgroup')
  rw [RefMap.rename, emptyGroups]
  rw [Map.lookup_emplaceAll_of_entry notMem_empty]
  · rfl
  · refine mem_filterMap.mpr ⟨(group, index'), mk_mem_zipIdx_iff_getElem?.mpr hgroup, ?_⟩
    simp [hself, hchildren, hclaimed, hparent]
  · intro entry hentry hkey
    obtain ⟨⟨other, index⟩, hother, hentry⟩ := mem_filterMap.mp hentry
    replace hother := mk_mem_zipIdx_iff_getElem?.mp hother
    dsimp only at hentry
    split at hentry
    case isFalse => cases hentry
    case isTrue =>
      obtain ⟨otherParent, hotherParent, rfl⟩ := Option.map_eq_some_iff.mp hentry
      dsimp only at hkey
      rw [hnamed.selfRefAt_eq hother] at hkey
      obtain rfl := slotRef_injective _ hkey
      obtain rfl : group = other := Option.some.inj (hgroup.symm.trans hother)
      rw [hparent] at hotherParent
      rw [Option.some.inj hotherParent]

omit hnamed in
theorem mem_claimed {index : ℕ} {group : GroupItem} {parent : RefItem}
    (hgroup : document.groups[index]? = some group) (hparent : group.parent = some parent) :
  parent.ref ∈ document.claimed
  := by
  have hmem : group.toNodeItem ∈ document.nodes := by
    have := mem_map_of_mem (mem_of_getElem? hgroup) (f := GroupItem.toNodeItem)
    simp only [nodes, mem_cons, mem_append]
    tauto
  rw [claimed, mem_toFinset, mem_filterMap]
  exact ⟨group.toNodeItem, hmem, by rw [hparent]; rfl⟩

theorem groupRenumbering_eq (removed : RefMap) :
  groupRenumbering removed document.groups = renumberRetired removed (renumber kGroups
    ((keptGroupSlots removed document.groups.length).map (slotRef kGroups)))
  := by
  rw [groupRenumbering, (keptGroups_eq hnamed removed).2]

/-- What a removed group hung from is not removed with it. -/
theorem rename_notMem_emptyGroups :
  ∀ ref ∈ document.emptyGroups, document.emptyGroups.rename ref ∉ document.emptyGroups
  := by
  intro ref href hparentRemoved
  obtain ⟨index, group, parent, hgroup, rfl, hparent, -⟩ := (mem_emptyGroups_iff hnamed).mp href
  rw [rename_emptyGroups hnamed hgroup hparent href] at hparentRemoved
  obtain ⟨-, -, -, -, -, -, -, hclaimed⟩ := (mem_emptyGroups_iff hnamed).mp hparentRemoved
  exact hclaimed (mem_claimed hgroup hparent)

theorem goneRefs_keptGroupSlots :
  document.goneRefs (keptGroupSlots document.emptyGroups document.groups.length) =
    document.emptyGroups.keys
  := by
  ext ref
  rw [mem_goneRefs, Finmap.mem_keys]
  constructor
  · rintro ⟨index, hindex, hout, rfl⟩
    by_contra hstays
    exact hout (List.mem_filter.mpr ⟨List.mem_range.mpr hindex, by simpa using hstays⟩)
  · intro href
    obtain ⟨index, group, -, hgroup, rfl, -⟩ := (mem_emptyGroups_iff hnamed).mp href
    refine ⟨index, (List.getElem?_eq_some_iff.mp hgroup).1, fun hmem => ?_, rfl⟩
    have hstays : slotRef kGroups index ∉ document.emptyGroups := by
      simpa using (List.mem_filter.mp hmem).2
    exact hstays href

/-- The groups of a round are removed or kept. -/
theorem card_keys_emptyGroups :
  document.emptyGroups.keys.card +
      (keptGroupSlots document.emptyGroups document.groups.length).length =
    document.groups.length
  := by
  rw [← goneRefs_keptGroupSlots hnamed, goneRefs,
    card_toFinset, List.Nodup.dedup
      ((nodup_range.filter _).map (slotRef_injective _)), length_map]
  have hgone : ((range document.groups.length).filter
      (· ∉ keptGroupSlots document.emptyGroups document.groups.length)) =
        (range document.groups.length).filter fun index =>
          ¬ decide (slotRef kGroups index ∉ document.emptyGroups) := by
    apply filter_congr
    intro index hindex
    simp [keptGroupSlots, mem_range.mp hindex]
  have hsplit := length_eq_length_filter_add (l := range document.groups.length)
    fun index => decide (slotRef kGroups index ∉ document.emptyGroups)
  rw [length_range] at hsplit
  rw [hgone, keptGroupSlots]
  simp only [decide_not, Bool.not_not, Bool.decide_eq_true] at hsplit ⊢
  omega

/-- A round is a removal. -/
theorem removal_removeGroups :
  Removal document (keptGroupSlots document.emptyGroups document.groups.length)
    (groupRenumbering document.emptyGroups document.groups)
    (document.removeGroups document.emptyGroups)
  := by
  have hnames : ((keptGroupSlots document.emptyGroups document.groups.length).map
      (slotRef kGroups)).Nodup :=
    (List.nodup_range.filter _).map (slotRef_injective _)
  have hrename := rename_renumberRetired (rename_notMem_emptyGroups hnamed)
    (renumber kGroups ((keptGroupSlots document.emptyGroups document.groups.length).map
      (slotRef kGroups)))
  rw [← groupRenumbering_eq hnamed] at hrename
  have hremoved : ∀ index ∈ keptGroupSlots document.emptyGroups document.groups.length,
      slotRef kGroups index ∉ document.emptyGroups := fun index hindex => by
    simpa using (List.mem_filter.mp hindex).2
  constructor
  case sublist => exact List.filter_sublist
  case result =>
    have hpruned : NamedGroups
        (document.mapNodes (·.pruneChildren document.emptyGroups.keys)).groups := by
      intro index group hgroup
      simp only [mapNodes, List.getElem?_map] at hgroup
      obtain ⟨old, hold, rfl⟩ := Option.map_eq_some_iff.mp hgroup
      exact hnamed index old hold
    have hlength : (document.mapNodes (·.pruneChildren document.emptyGroups.keys)).groups.length =
        document.groups.length := by
      simp [mapNodes]
    have hrenumbering : groupRenumbering document.emptyGroups
        (document.mapNodes (·.pruneChildren document.emptyGroups.keys)).groups =
          groupRenumbering document.emptyGroups document.groups := by
      rw [groupRenumbering_eq hpruned, groupRenumbering_eq hnamed, hlength]
    rw [removeGroups, hrenumbering, (keptGroups_eq hpruned _).1, hlength,
      goneRefs_keptGroupSlots hnamed]
    exact rewriteReferences_keepGroups _ _ _
  case keeps =>
    intro next index hindex
    have hstays := hremoved index (List.mem_of_getElem? hindex)
    rw [hrename, RefMap.rename_of_notMem hstays]
    apply rename_renumber hnames
    rw [List.getElem?_map, hindex]
    rfl
  case redirects =>
    intro ref
    by_cases href : ref ∈ document.emptyGroups
    · obtain ⟨index, group, parent, hgroup, rfl, hparent, -⟩ := (mem_emptyGroups_iff hnamed).mp href
      have hparentRef := rename_emptyGroups hnamed hgroup hparent href
      have hstays := rename_notMem_emptyGroups hnamed _ href
      rw [hparentRef] at hstays
      refine ⟨parent.ref, .up hgroup (fun hmem => hremoved index hmem href) hparent (.here ?_), ?_⟩
      · rwa [goneRefs_keptGroupSlots hnamed, Finmap.mem_keys]
      · rw [hrename, hrename, hparentRef, RefMap.rename_of_notMem hstays]
    · refine ⟨ref, .here ?_, rfl⟩
      rwa [goneRefs_keptGroupSlots hnamed, Finmap.mem_keys]
  case others =>
    intro ref href
    have hstays : ref ∉ document.emptyGroups := by
      intro hmem
      obtain ⟨index, group, -, hgroup, rfl, -⟩ := (mem_emptyGroups_iff hnamed).mp hmem
      exact href index (List.getElem?_eq_some_iff.mp hgroup).1 rfl
    rw [hrename, RefMap.rename_of_notMem hstays]
    apply rename_renumber_of_notMem
    intro hmem
    obtain ⟨index, hindex, rfl⟩ := List.mem_map.mp hmem
    exact href index (List.mem_range.mp (List.mem_of_mem_filter hindex)) rfl

end

/-! ### The result -/

/-- Every group that hangs from a node has a child, or an item names it as its parent. -/
def NoneEmpty (document : FullDocument) : Prop :=
  ∀ index group, document.groups[index]? = some group → group.parent ≠ none →
    group.children ≠ [] ∨ ∃ node ∈ document.nodes, ∃ parent, node.parent = some parent ∧
      parent.ref = slotRef kGroups index

/-- The nodes of a document are changed one by one. -/
theorem nodes_mapNodes (document : FullDocument) (f : NodeItem → NodeItem) :
  (document.mapNodes f).nodes = document.nodes.map f
  := by
  have htext : ∀ item : BaseTextItem,
      (item.mapNode f).fields.map (·.toNodeItem) = (item.fields.map (·.toNodeItem)).map f := by
    intro item
    cases item <;> rfl
  simp [nodes, mapNodes, map_filterMap, filterMap_map,
    Function.comp_def, htext]

theorem mapNodes_mapNodes (document : FullDocument) :
  (document.mapNodes fun node => node).mapNodes (fun node => node) =
    document.mapNodes fun node => node
  := by
  have htext : ∀ item : BaseTextItem, (item.mapNode fun node => node).mapNode (fun node => node) =
      item.mapNode fun node => node := by
    intro item
    cases item <;> rfl
  simp [mapNodes, Function.comp_def, htext]

theorem emptyGroups_mapNodes (document : FullDocument) :
  (document.mapNodes fun node => node).emptyGroups = document.emptyGroups
  := by
  have hclaimed : (document.mapNodes fun node => node).claimed = document.claimed := by
    rw [claimed, nodes_mapNodes, map_id', claimed]
  have hgroups : (document.mapNodes fun node => node).groups = document.groups := by
    simp [mapNodes]
  rw [emptyGroups, hclaimed, hgroups, emptyGroups]

theorem noneEmpty_of_emptyGroups (hnamed : NamedGroups document.groups)
    (hnone : document.emptyGroups = ∅) :
  NoneEmpty document
  := by
  intro index group hgroup hparent
  obtain ⟨parent, hparent⟩ := Option.ne_none_iff_exists'.mp hparent
  by_contra hempty
  push Not at hempty
  have hmem : slotRef kGroups index ∈ document.emptyGroups := by
    refine (mem_emptyGroups_iff hnamed).mpr
      ⟨index, group, parent, hgroup, rfl, hparent, hempty.1, ?_⟩
    rw [claimed, mem_toFinset, mem_filterMap]
    rintro ⟨node, hnode, hname⟩
    obtain ⟨other, hother, heq⟩ := Option.map_eq_some_iff.mp hname
    exact hempty.2 node hnode other hother heq
  rw [hnone] at hmem
  exact notMem_empty hmem

/-- The empty groups are removed, and no group becomes empty by that: the others move up in order,
every reference follows, the count is that of the removed groups, and to do it again changes
nothing. -/
theorem removal_removeEmptyGroups (document : FullDocument)
    (hnamed : NamedGroups document.groups) :
  ∃ kept mapping, Removal document kept mapping (removeEmptyGroups document).1 ∧
    NamedGroups (removeEmptyGroups document).1.groups ∧ NoneEmpty (removeEmptyGroups document).1 ∧
    (removeEmptyGroups document).2 + kept.length = document.groups.length ∧
    removeEmptyGroups (removeEmptyGroups document).1 = ((removeEmptyGroups document).1, 0)
  := by
  fun_induction removeEmptyGroups document with
  | case1 document hnone =>
    have hrefl := Removal.refl document
    have hnamed' := hrefl.named hnamed
    have hnone' : (document.mapNodes fun node => node).emptyGroups = ∅ := by
      rw [emptyGroups_mapNodes, hnone]
    refine ⟨_, _, hrefl, hnamed', noneEmpty_of_emptyGroups hnamed' hnone', by simp, ?_⟩
    rw [removeEmptyGroups, if_pos hnone', mapNodes_mapNodes]
  | case2 document hsome result count heq ih =>
    rw [heq] at ih
    have hround := removal_removeGroups hnamed
    obtain ⟨kept, mapping, hrest, hnamed', hempty, hcount, hagain⟩ := ih (hround.named hnamed)
    refine ⟨_, _, hround.trans hrest, hnamed', hempty, ?_, hagain⟩
    have hlt : ∀ index ∈ kept,
        index < (keptGroupSlots document.emptyGroups document.groups.length).length :=
      fun index hindex => hround.length_groups ▸ hrest.lt_length index hindex
    rw [length_filterMap_positions hlt]
    have hremoved := card_keys_emptyGroups hnamed
    have hleft := hround.length_groups
    omega

/-- A group whose only child is an empty group. -/
def nestedGroups : FullDocument where
  body := some { selfRef := "#/body", children := [⟨"#/groups/0"⟩] }
  groups := [
    { selfRef := "#/groups/0", parent := some ⟨"#/body"⟩, children := [⟨"#/groups/1"⟩] },
    { selfRef := "#/groups/1", parent := some ⟨"#/groups/0"⟩ }]

theorem namedGroups_nestedGroups :
  NamedGroups nestedGroups.groups
  := by
  intro index group hgroup
  match index with
  | 0 | 1 =>
    obtain rfl := Option.some.inj hgroup
    decide
  | index + 2 => simp [nestedGroups] at hgroup

theorem removal_removeEmptyGroups_nested :
  ∃ kept mapping, Removal nestedGroups kept mapping (removeEmptyGroups nestedGroups).1 ∧
    (removeEmptyGroups nestedGroups).2 + kept.length = 2
  := by
  obtain ⟨kept, mapping, h, -, -, hcount, -⟩ :=
    removal_removeEmptyGroups nestedGroups namedGroups_nestedGroups
  exact ⟨kept, mapping, h, hcount⟩

end GRParse
