import GRParse.Document.References

/-!
# The repair delta

A client that folds page events holds a document whose arenas may miss slots.  `repairDelta`
says what to change in it to arrive at the collector's document, and `applyRepairDelta`
makes the change.  The delta leaves out every item that the renamed fold already holds, so
the encoder's test for an item and the decoder's search for it have to agree: both ask for
the one holder of a reference.
-/

namespace GRParse

open Containers List

/-! ### Arenas -/

section Arena

variable {Item : Type} [ArenaItem Item]

/-- The item of the arena that carries a reference, when exactly one does: the slot map of
`diff_arena` and `rebuild`, less the references that are shared. -/
def holder (arena : List Item) (ref : String) : Option Item :=
  match arena.filter fun item => selfRefOf item = ref with
  | [item] => some item
  | _ => none

/-- `diff_arena`: the items of `after` that the renamed fold does not already hold verbatim
under the same reference, and only that reference. -/
def diffArena [DecidableEq Item] (before after : List Item) : List Item :=
  after.filter fun item => holder before (selfRefOf item) ≠ some item

/-- The last of the upserts that names a slot. -/
def upserted (start : String) (upserts : List Item) (index : ℕ) : Option Item :=
  upserts.reverse.find? fun item => arenaIndex (selfRefOf item) start = some index

/-- What `rebuild` puts into a slot: the upsert that names it, or the one folded item now
carrying its reference. -/
def rebuiltSlot (start : String) (arena upserts : List Item) (index : ℕ) : Option Item :=
  (upserted start upserts index).or (holder arena (slotRef start index))

/-- Whether an upsert names a slot below `count`. -/
def namesSlotBelow (start : String) (count : ℕ) (item : Item) : Bool :=
  match arenaIndex (selfRefOf item) start with
  | some index => index < count
  | none => false

/-- `rebuild`: the arena with `count` slots, nothing when it fails. -/
def rebuild (start : String) (arena upserts : List Item) (count : ℕ) : Option (List Item) :=
  if upserts.all (namesSlotBelow start count) then
    (List.range count).mapM (rebuiltSlot start arena upserts)
  else none

/-- Every slot holds an item that carries the slot's reference.  The size of an arena is an
`int`. -/
structure Positional (start : String) (arena : List Item) : Prop where
  fits : (arena.length : ℤ) ≤ intMax
  named : ∀ index (h : index < arena.length), selfRefOf arena[index] = slotRef start index

/-- Every slot holds an item that carries the slot's reference, or a placeholder, which
carries none. -/
def Seated (start : String) (arena : List Item) : Prop :=
  ∀ index (h : index < arena.length),
    selfRefOf arena[index] = slotRef start index ∨ selfRefOf arena[index] = ""

instance (start : String) (arena : List Item) : Decidable (Positional start arena) :=
  decidable_of_iff ((arena.length : ℤ) ≤ intMax ∧
      ∀ index (h : index < arena.length), selfRefOf arena[index] = slotRef start index)
    ⟨fun h => ⟨h.1, h.2⟩, fun h => ⟨h.fits, h.named⟩⟩

instance (start : String) (arena : List Item) : Decidable (Seated start arena) :=
  inferInstanceAs (Decidable (∀ index (_ : index < arena.length), _))

/-- A walk that finds a value for each element finds them all. -/
theorem mapM_eq_some {α β : Type} {f : α → Option β} {xs : List α} {ys : List β}
    (h : List.Forall₂ (fun x y => f x = some y) xs ys) :
  xs.mapM f = some ys
  := by
  induction h with
  | nil => rfl
  | cons hxy _ ih => simp [mapM_cons, hxy, ih]

theorem slotRef_ne_empty (start : String) (index : ℕ) :
  slotRef start index ≠ ""
  := by
  intro h
  have := congrArg String.toList h
  simp [Nat.toDigits_ne_nil] at this

/-- The holder of a reference is in the arena and carries it. -/
theorem mem_of_holder {arena : List Item} {ref : String} {item : Item}
    (h : holder arena ref = some item) :
  item ∈ arena ∧ selfRefOf item = ref
  := by
  unfold holder at h
  split at h
  next only heq =>
    obtain rfl := Option.some.inj h
    have hmem : only ∈ arena.filter fun item => selfRefOf item = ref := by
      rw [heq]
      exact mem_singleton_self only
    simpa using hmem
  next => cases h

/-- The delta has nothing to say about an arena: it has the right size, and it is the one
holder of everything wanted. -/
structure Held [DecidableEq Item] (before after : List Item) : Prop where
  same : diffArena before after = []
  length : before.length = after.length

theorem Held.holder_eq [DecidableEq Item] {before after : List Item} (h : Held before after)
    {item : Item} (hitem : item ∈ after) :
  holder before (selfRefOf item) = some item
  := by
  by_contra hholder
  have hmem : item ∈ diffArena before after :=
    mem_filter.mpr ⟨hitem, by simpa using hholder⟩
  rw [h.same] at hmem
  exact absurd hmem not_mem_nil

namespace Positional

variable {start : String} {arena : List Item}

/-- An item of a positional arena names its slot. -/
theorem arenaIndex_eq (harena : Positional start arena) {index : ℕ} (h : index < arena.length) :
  arenaIndex (selfRefOf arena[index]) start = some index
  := by
  rw [harena.named index h]
  apply arenaIndex_slotRef
  have := harena.fits
  omega

/-- An item of a positional arena is the one at the slot it names. -/
theorem eq_of_arenaIndex (harena : Positional start arena) {item : Item}
    (hitem : item ∈ arena) {index : ℕ} (hindex : arenaIndex (selfRefOf item) start = some index) :
  ∃ h : index < arena.length, item = arena[index]
  := by
  obtain ⟨slot, hslot, rfl⟩ := getElem_of_mem hitem
  rw [harena.arenaIndex_eq hslot] at hindex
  obtain rfl := Option.some.inj hindex
  exact ⟨hslot, rfl⟩

variable [DecidableEq Item]

/-- What the delta upserts at a slot is the item at that slot. -/
theorem upserted_diffArena (harena : Positional start arena) (before : List Item) {index : ℕ}
    (h : index < arena.length) :
  upserted start (diffArena before arena) index =
    if arena[index] ∈ diffArena before arena then some arena[index] else none
  := by
  have hall : ∀ item ∈ diffArena before arena,
      arenaIndex (selfRefOf item) start = some index → item = arena[index] := by
    intro item hitem hindex
    exact (harena.eq_of_arenaIndex (mem_of_mem_filter hitem) hindex).2
  split
  next hmem =>
    cases hfound : upserted start (diffArena before arena) index with
    | none =>
      rw [upserted, find?_eq_none] at hfound
      have := hfound arena[index] (mem_reverse.mpr hmem)
      simp [harena.arenaIndex_eq h] at this
    | some item =>
      have hitem := mem_of_find?_eq_some hfound
      have hindex := find?_some hfound
      rw [hall item (mem_reverse.mp hitem) (by simpa using hindex)]
  next hmem =>
    rw [upserted, find?_eq_none]
    intro item hitem hindex
    have := hall item (mem_reverse.mp hitem) (by simpa using hindex)
    exact hmem (this ▸ mem_reverse.mp hitem)

/-- Whatever the folded arena holds, the delta rebuilds the arena it was made for. -/
theorem rebuild_diffArena (harena : Positional start arena) (before : List Item) :
  rebuild start before (diffArena before arena) arena.length = some arena
  := by
  have hbelow : (diffArena before arena).all (namesSlotBelow start arena.length) = true := by
    rw [all_eq_true]
    intro item hitem
    obtain ⟨index, h, rfl⟩ := getElem_of_mem (mem_of_mem_filter hitem)
    simpa [namesSlotBelow, harena.arenaIndex_eq h] using h
  have hslot : ∀ index (h : index < arena.length),
      rebuiltSlot start before (diffArena before arena) index = some arena[index] := by
    intro index h
    rw [rebuiltSlot, harena.upserted_diffArena before h]
    split
    next => rfl
    next hmem =>
      rw [Option.none_or, ← harena.named index h]
      by_contra hholder
      exact hmem (mem_filter.mpr ⟨getElem_mem h, by simpa using hholder⟩)
  rw [rebuild, if_pos hbelow]
  apply mapM_eq_some
  rw [forall₂_iff_get]
  refine ⟨length_range, ?_⟩
  intro index _ h
  simpa using hslot index h

/-- A seated arena that holds the arena is the arena. -/
theorem eq_of_held (harena : Positional start arena) {before : List Item}
    (hbefore : Seated start before) (hheld : Held before arena) :
  before = arena
  := by
  apply ext_getElem hheld.length
  intro index hindex h
  have hkept := hheld.holder_eq (getElem_mem h)
  obtain ⟨slot, hslot, hitem⟩ := getElem_of_mem (mem_of_holder hkept).1
  have hname := hbefore slot hslot
  rw [hitem, harena.named index h] at hname
  obtain heq | hempty := hname
  · obtain rfl := slotRef_injective start heq
    exact hitem
  · exact absurd hempty (slotRef_ne_empty start index)

end Positional

end Arena

/-! ### Documents -/

/-- The collectors. -/
inductive Collector where
  | unspecified
  | grparseCv
  | libreoffice
  | calamine
  | asr
  | email
  | xml
  | ebcdic
  | epub
  | markup
  | lolHtml
  | fastwarc
  | pdf
  | confluence
  | vlm
  deriving DecidableEq, Repr

/-- What to change in a folded document. -/
structure DocumentRepairDelta where
  collector : Collector
  renamedRefs : RefMap
  texts : List BaseTextItem
  tables : List TableItem
  pictures : List PictureItem
  groups : List GroupItem
  textCount : ℕ
  tableCount : ℕ
  pictureCount : ℕ
  groupCount : ℕ
  bodyChildren : Option (List RefItem)
  furnitureChildren : Option (List RefItem)
  pages : PageMap
  droppedPages : Finset ℤ

/-- `same_refs`, with what is sent when the children of a root are not the same. -/
def changedChildren (before after : Option GroupItem) : Option (List RefItem) :=
  if rootChildren before = rootChildren after then none else some (rootChildren after)

/-- The document with the references of a renaming that renames something rewritten. -/
def Document.renameRefs (renamed : RefMap) (document : Document) : Document :=
  if renamed = ∅ then document else document.rewriteReferences renamed

/-- The delta `repair_delta` fills in for the renamed fold. -/
def deltaFor (fold after : Document) (renamed : RefMap) (collector : Collector) :
    DocumentRepairDelta where
  collector := collector
  renamedRefs := renamed
  texts := diffArena fold.texts after.texts
  tables := diffArena fold.tables after.tables
  pictures := diffArena fold.pictures after.pictures
  groups := diffArena fold.groups after.groups
  textCount := after.texts.length
  tableCount := after.tables.length
  pictureCount := after.pictures.length
  groupCount := after.groups.length
  bodyChildren := changedChildren fold.body after.body
  furnitureChildren := changedChildren fold.furniture after.furniture
  pages := after.pages.changed fold.pages
  droppedPages := fold.pages.keys \ after.pages.keys

/-- Whether a delta for the renamed fold says anything. -/
def DocumentRepairDelta.Changes (delta : DocumentRepairDelta) (fold : Document) : Prop :=
  delta.renamedRefs ≠ ∅ ∨
    delta.texts ≠ [] ∨ delta.tables ≠ [] ∨ delta.pictures ≠ [] ∨ delta.groups ≠ [] ∨
    fold.texts.length ≠ delta.textCount ∨ fold.tables.length ≠ delta.tableCount ∨
    fold.pictures.length ≠ delta.pictureCount ∨ fold.groups.length ≠ delta.groupCount ∨
    delta.bodyChildren ≠ none ∨ delta.furnitureChildren ≠ none ∨
    delta.pages ≠ ∅ ∨ delta.droppedPages ≠ ∅

instance (delta : DocumentRepairDelta) (fold : Document) : Decidable (delta.Changes fold) :=
  inferInstanceAs (Decidable (_ ∨ _))

/-- `repair_delta`: what turns `before`, renamed, into `after`, if it has to be changed. -/
def repairDelta (before after : Document) (renamed : RefMap) (collector : Collector) :
    Option DocumentRepairDelta :=
  let fold := before.renameRefs renamed
  let delta := deltaFor fold after renamed collector
  if delta.Changes fold then some delta else none

/-- The root with the children that are sent, if any are. -/
def replaceChildren (root : Option GroupItem) (children : Option (List RefItem)) :
    Option GroupItem :=
  match children with
  | some refs => some { root.getD {} with children := refs }
  | none => root

/-- The document with its arenas rebuilt, and its roots and pages changed as the delta says. -/
def Document.patch (document : Document) (delta : DocumentRepairDelta)
    (texts : List BaseTextItem) (tables : List TableItem) (pictures : List PictureItem)
    (groups : List GroupItem) : Document :=
  { document with
    texts := texts
    tables := tables
    pictures := pictures
    groups := groups
    body := replaceChildren document.body delta.bodyChildren
    furniture := replaceChildren document.furniture delta.furnitureChildren
    pages := (document.pages.putAll delta.pages).eraseAll delta.droppedPages }

/-- `apply_repair_delta`: the repaired document, nothing when the delta does not fit it. -/
def applyRepairDelta (delta : DocumentRepairDelta) (document : Document) : Option Document := do
  let document := document.renameRefs delta.renamedRefs
  let texts ← rebuild kTexts document.texts delta.texts delta.textCount
  let tables ← rebuild kTables document.tables delta.tables delta.tableCount
  let pictures ← rebuild kPictures document.pictures delta.pictures delta.pictureCount
  let groups ← rebuild kGroups document.groups delta.groups delta.groupCount
  return document.patch delta texts tables pictures groups

/-- Two documents have the same arenas, the same children of their roots, and the same
pages. -/
structure SameContent (document other : Document) : Prop where
  texts : document.texts = other.texts
  tables : document.tables = other.tables
  pictures : document.pictures = other.pictures
  groups : document.groups = other.groups
  body : rootChildren document.body = rootChildren other.body
  furniture : rootChildren document.furniture = rootChildren other.furniture
  pages : document.pages = other.pages

/-- All arenas of a document are positional. -/
structure Document.Positional (document : Document) : Prop where
  texts : GRParse.Positional kTexts document.texts
  tables : GRParse.Positional kTables document.tables
  pictures : GRParse.Positional kPictures document.pictures
  groups : GRParse.Positional kGroups document.groups

/-- All arenas of a document are positional, up to placeholders. -/
structure Document.Seated (document : Document) : Prop where
  texts : GRParse.Seated kTexts document.texts
  tables : GRParse.Seated kTables document.tables
  pictures : GRParse.Seated kPictures document.pictures
  groups : GRParse.Seated kGroups document.groups

instance (document : Document) : Decidable document.Positional :=
  decidable_of_iff
    (GRParse.Positional kTexts document.texts ∧ GRParse.Positional kTables document.tables ∧
      GRParse.Positional kPictures document.pictures ∧
      GRParse.Positional kGroups document.groups)
    ⟨fun ⟨texts, tables, pictures, groups⟩ => ⟨texts, tables, pictures, groups⟩,
      fun h => ⟨h.texts, h.tables, h.pictures, h.groups⟩⟩

instance (document : Document) : Decidable document.Seated :=
  decidable_of_iff
    (GRParse.Seated kTexts document.texts ∧ GRParse.Seated kTables document.tables ∧
      GRParse.Seated kPictures document.pictures ∧ GRParse.Seated kGroups document.groups)
    ⟨fun ⟨texts, tables, pictures, groups⟩ => ⟨texts, tables, pictures, groups⟩,
      fun h => ⟨h.texts, h.tables, h.pictures, h.groups⟩⟩

/-- The children that are sent, where they are not the same, are the ones wanted. -/
theorem rootChildren_replaceChildren (before after : Option GroupItem) :
  rootChildren (replaceChildren before (changedChildren before after)) = rootChildren after
  := by
  unfold changedChildren
  split
  next h => exact h
  next => rfl

/-- Children that are not sent are the same. -/
theorem eq_of_changedChildren {before after : Option GroupItem}
    (h : changedChildren before after = none) :
  rootChildren before = rootChildren after
  := by
  unfold changedChildren at h
  split at h
  next heq => exact heq
  next => cases h

/-- The repair delta is the delta for the renamed fold. -/
theorem eq_deltaFor_of_repairDelta {before after : Document} {renamed : RefMap}
    {collector : Collector} {delta : DocumentRepairDelta}
    (h : repairDelta before after renamed collector = some delta) :
  delta = deltaFor (before.renameRefs renamed) after renamed collector
  := by
  simp only [repairDelta, Option.ite_none_right_eq_some, Option.some.injEq] at h
  exact h.2.symm

/-- The delta for a renamed fold turns it into the document it was made for. -/
theorem applyRepairDelta_deltaFor (before : Document) {after : Document}
    (hafter : after.Positional) (renamed : RefMap) (collector : Collector) :
  ∃ result,
    applyRepairDelta (deltaFor (before.renameRefs renamed) after renamed collector) before =
      some result ∧
    SameContent result after
  := by
  let fold := before.renameRefs renamed
  let delta := deltaFor fold after renamed collector
  use fold.patch delta after.texts after.tables after.pictures after.groups
  constructor
  · have htexts := hafter.texts.rebuild_diffArena fold.texts
    have htables := hafter.tables.rebuild_diffArena fold.tables
    have hpictures := hafter.pictures.rebuild_diffArena fold.pictures
    have hgroups := hafter.groups.rebuild_diffArena fold.groups
    simp only [applyRepairDelta, deltaFor, fold, htexts, htables, hpictures, hgroups]
    rfl
  · constructor
    case texts | tables | pictures | groups => rfl
    case body | furniture => apply rootChildren_replaceChildren
    case pages => apply Map.eraseAll_putAll_changed

/-- A fold the repair delta has nothing to say about is the document wanted, if the arenas are
the ones wanted when they have the right size and nothing in them changed. -/
theorem sameContent_of_repairDelta_eq_none {before after : Document} {renamed : RefMap}
    {collector : Collector} (h : repairDelta before after renamed collector = none)
    (htexts : Held before.texts after.texts → before.texts = after.texts)
    (htables : Held before.tables after.tables → before.tables = after.tables)
    (hpictures : Held before.pictures after.pictures → before.pictures = after.pictures)
    (hgroups : Held before.groups after.groups → before.groups = after.groups) :
  SameContent before after
  := by
  have hsame : ¬ (deltaFor (before.renameRefs renamed) after renamed collector).Changes
      (before.renameRefs renamed) := by
    intro hchanges
    rw [repairDelta, if_pos hchanges] at h
    cases h
  simp only [DocumentRepairDelta.Changes, deltaFor, not_or, ne_eq, not_not] at hsame
  obtain ⟨rfl, texts, tables, pictures, groups, textCount, tableCount, pictureCount, groupCount,
    body, furniture, pages, droppedPages⟩ := hsame
  constructor
  case texts => exact htexts ⟨texts, textCount⟩
  case tables => exact htables ⟨tables, tableCount⟩
  case pictures => exact hpictures ⟨pictures, pictureCount⟩
  case groups => exact hgroups ⟨groups, groupCount⟩
  case body => exact eq_of_changedChildren body
  case furniture => exact eq_of_changedChildren furniture
  case pages => exact (Map.eq_of_changed pages (Finset.sdiff_eq_empty_iff_subset.mp droppedPages)).symm

/-- Applying the repair delta between two documents turns the first into the second, for any
renaming; when there is none, they are the same already. -/
theorem repairDelta_roundTrip {before after : Document} (hbefore : before.Seated)
    (hafter : after.Positional) (renamed : RefMap) (collector : Collector) :
  match repairDelta before after renamed collector with
  | some delta => ∃ result, applyRepairDelta delta before = some result ∧ SameContent result after
  | none => SameContent before after
  := by
  cases h : repairDelta before after renamed collector with
  | none =>
    exact sameContent_of_repairDelta_eq_none h (hafter.texts.eq_of_held hbefore.texts)
      (hafter.tables.eq_of_held hbefore.tables) (hafter.pictures.eq_of_held hbefore.pictures)
      (hafter.groups.eq_of_held hbefore.groups)
  | some delta =>
    obtain rfl := eq_deltaFor_of_repairDelta h
    exact applyRepairDelta_deltaFor before hafter renamed collector

/-- A paragraph that refers to itself as given. -/
def paragraph (ref text : String) : BaseTextItem :=
  .based .text (some { selfRef := ref, text := text }) .done

/-- A fold that misses its second text. -/
def foldedTexts : Document where
  texts := [paragraph "#/texts/0" "left", .notSet, paragraph "#/texts/2" "right"]
  pages := Finmap.singleton 2 { pageNo := 2 }

/-- The document of the fold after its two texts have been swapped and joined by a third. -/
def swappedTexts : Document where
  texts := [paragraph "#/texts/0" "right", paragraph "#/texts/1" "and",
    paragraph "#/texts/2" "left"]
  pages := Finmap.singleton 1 { pageNo := 1 }

/-- The renaming that swaps the two texts of the fold. -/
def swapRefs : RefMap :=
  (Finmap.singleton "#/texts/0" "#/texts/2").insert "#/texts/2" "#/texts/0"

/-- Two texts swap their references while a third is put between them. -/
theorem repairDelta_roundTrip_swap :
  match repairDelta foldedTexts swappedTexts swapRefs .grparseCv with
  | some delta => ∃ result, applyRepairDelta delta foldedTexts = some result ∧
      SameContent result swappedTexts
  | none => SameContent foldedTexts swappedTexts
  := @repairDelta_roundTrip foldedTexts swappedTexts (by decide) (by decide) swapRefs .grparseCv

end GRParse
