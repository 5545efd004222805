import GRParse.Document.Placement
import GRParse.Document.StreamDelta

/-!
# Folding page events

`PageFold` rebuilds a document from the events of its pages.  It puts each item into the slot
its reference names, unless that slot is too far past the end of the arena; then the item is
appended, and whatever names the slot it got will overwrite it.  The repair delta makes up for
what the fold lost.
-/

namespace GRParse

open Containers List

/-! ### The fold -/

/-- `kMaximumGap`. -/
def kMaximumGap : ℤ := 1048576

section Arena

variable {Item : Type} [ArenaItem Item]

/-- `place`: an item put into the slot it names, behind placeholders if need be, or
appended when the slot is too far away. -/
def place (start : String) (arena : List Item) (item : Item) : List Item :=
  match arenaIndex (selfRefOf item) start with
  | some index =>
    if kMaximumGap < (index : ℤ) - arena.length then arena ++ [item]
    else (arena.rightpad (index + 1) default).set index item
  | none => arena ++ [item]

/-- The parent of the item a reference names in an arena, nothing when the item in the slot
does not carry the reference. -/
def parentInArena (start : String) (arena : List Item) (ref : String) : Option String := do
  let index ← arenaIndex ref start
  let item ← arena[index]?
  if selfRefOf item = ref then some (parentOf item) else none

end Arena

/-- `parent_in`: the parent of the item a reference names, nothing when no item in the document
carries the reference. -/
def parentIn (document : Document) (ref : String) : Option String :=
  parentInArena kTexts document.texts ref
    <|> parentInArena kTables document.tables ref
    <|> parentInArena kPictures document.pictures ref
    <|> parentInArena kGroups document.groups ref

/-- `top_level`: the ancestor of `ref` whose parent is no arena item, and that parent.  A cycle
stops at the depth limit. -/
def topLevel (document : Document) : ℕ → String → String × String
  | 0, ref => (ref, "")
  | depth + 1, ref =>
    match parentIn document ref with
    | none => (ref, "")
    | some parent =>
      if (parentIn document parent).isNone then (ref, parent) else topLevel document depth parent

/-- A root with one more child. -/
def addChild (root : Option GroupItem) (ref : String) : Option GroupItem :=
  some { root.getD {} with children := rootChildren root ++ [⟨ref⟩] }

structure PageFold where
  document : Document := {}
  body : Finset String := ∅
  furniture : Finset String := ∅
  pages : ℕ := 0

namespace PageFold

/-- The document with the items and the metadata of a page put in. -/
def placePage (document : Document) (page : PageData) : Document :=
  { document with
    groups := page.groups.foldl (place kGroups) document.groups
    texts := page.texts.foldl (place kTexts) document.texts
    tables := page.tables.foldl (place kTables) document.tables
    pictures := page.pictures.foldl (place kPictures) document.pictures
    pages := document.pages.insert page.pageNumber (page.pageMeta.getD {}) }

/-- The top-level ancestor of an item in the reading order becomes a child of the body, unless
it hangs off the furniture. -/
def foldBodyChild (fold : PageFold) (child : RefItem) : PageFold :=
  let (top, root) := topLevel fold.document 256 child.ref
  if root = "#/furniture" ∨ top ∈ fold.body then fold
  else { fold with
    body := insert top fold.body
    document := { fold.document with body := addChild fold.document.body top } }

/-- The top-level ancestor of an item outside the reading order becomes a child of the
furniture, if it hangs off it. -/
def furnish (inBody : List RefItem) (fold : PageFold) (ref : String) : PageFold :=
  if ⟨ref⟩ ∈ inBody then fold
  else
    let (top, root) := topLevel fold.document 256 ref
    if root ≠ "#/furniture" ∨ top ∈ fold.furniture then fold
    else { fold with
      furniture := insert top fold.furniture
      document := { fold.document with furniture := addChild fold.document.furniture top } }

/-- `fold`. -/
def fold (fold : PageFold) (page : PageData) : PageFold :=
  let fold := { fold with pages := fold.pages + 1, document := placePage fold.document page }
  let fold := page.bodyOrder.foldl foldBodyChild fold
  let refs := page.groups.map selfRefOf ++ page.texts.map selfRefOf ++
    page.tables.map selfRefOf ++ page.pictures.map selfRefOf
  refs.foldl (furnish page.bodyOrder) fold

end PageFold

/-! ### What the fold puts into the arenas -/

/-- The arenas of a document after the items of some pages were put in. -/
structure Filled (document document' : Document) (pages : List PageData) : Prop where
  texts : document'.texts = (pages.flatMap (·.texts)).foldl (place kTexts) document.texts
  tables : document'.tables = (pages.flatMap (·.tables)).foldl (place kTables) document.tables
  pictures : document'.pictures =
    (pages.flatMap (·.pictures)).foldl (place kPictures) document.pictures
  groups : document'.groups = (pages.flatMap (·.groups)).foldl (place kGroups) document.groups

theorem Filled.refl (document : Document) :
  Filled document document []
  := ⟨rfl, rfl, rfl, rfl⟩

theorem Filled.trans {document document' document'' : Document} {pages pages' : List PageData}
    (h : Filled document document' pages) (h' : Filled document' document'' pages') :
  Filled document document'' (pages ++ pages')
  := by
  constructor
  · rw [h'.texts, h.texts, flatMap_append, foldl_append]
  · rw [h'.tables, h.tables, flatMap_append, foldl_append]
  · rw [h'.pictures, h.pictures, flatMap_append, foldl_append]
  · rw [h'.groups, h.groups, flatMap_append, foldl_append]

namespace PageFold

/-- The trees do not change the arenas. -/
theorem filled_foldBodyChild (fold : PageFold) (child : RefItem) :
  Filled fold.document (fold.foldBodyChild child).document []
  := by
  unfold foldBodyChild
  dsimp only
  split_ifs <;> exact ⟨rfl, rfl, rfl, rfl⟩

theorem filled_furnish (inBody : List RefItem) (fold : PageFold) (ref : String) :
  Filled fold.document (furnish inBody fold ref).document []
  := by
  unfold furnish
  dsimp only
  split_ifs <;> exact ⟨rfl, rfl, rfl, rfl⟩

theorem filled_foldl {α : Type} {f : PageFold → α → PageFold}
    (hf : ∀ fold x, Filled fold.document (f fold x).document []) (fold : PageFold) (xs : List α) :
  Filled fold.document (xs.foldl f fold).document []
  := by
  induction xs generalizing fold with
  | nil => exact Filled.refl fold.document
  | cons x xs ih => exact (hf fold x).trans (ih (f fold x))

/-- A page puts its items into the arenas. -/
theorem filled_fold (fold : PageFold) (page : PageData) :
  Filled fold.document (fold.fold page).document [page]
  := by
  let placed : PageFold :=
    { fold with pages := fold.pages + 1, document := placePage fold.document page }
  have hplace : Filled fold.document placed.document [page] := by
    constructor <;> simp [placed, placePage]
  have hbody := filled_foldl filled_foldBodyChild placed page.bodyOrder
  exact (hplace.trans hbody).trans (filled_foldl (filled_furnish page.bodyOrder) _ _)

/-- Page after page puts its items into the arenas. -/
theorem filled_foldl_fold (fold : PageFold) (pages : List PageData) :
  Filled fold.document (pages.foldl PageFold.fold fold).document pages
  := by
  induction pages generalizing fold with
  | nil => exact Filled.refl fold.document
  | cons page pages ih => exact (filled_fold fold page).trans (ih (fold.fold page))

end PageFold

/-! ### Whatever the fold lost is missing

As long as nothing is appended every item is in its own slot.  The first item to be appended
gets a slot before its own, whose owner has yet to come, and which will overwrite it: then the
item is in no slot at the end, and the delta has to send it. -/

section Arena

variable {Item : Type} [ArenaItem Item] {start : String} {arena : List Item}

/-- The items to come are still outside, and all other items sit in their slots, between
placeholders. -/
structure InPlace (arena coming placed : List Item) : Prop where
  blank : ∀ (slot : ℕ) (item : Item), placed[slot]? = some item → item = default ∨ arena[slot]? = some item
  seated : ∀ (slot : ℕ) (item : Item), arena[slot]? = some item → item ∈ coming ∨ placed[slot]? = some item

/-- Some item is lost, or sits in the slot of an item to come. -/
def Doomed (arena coming placed : List Item) : Prop :=
  ∃ item ∈ arena, item ∉ coming ∧
    (item ∉ placed ∨
      ∃ (slot : ℕ) (owner : Item), arena[slot]? = some owner ∧ owner ∈ coming ∧ owner ≠ item ∧
        slot < placed.length ∧ ∀ other : ℕ, placed[other]? = some item → other = slot)

/-- What `place` does with the item of a slot: it goes into the slot, or, if the arena ends
before the slot, behind it. -/
theorem place_slot (harena : Positional start arena) {slot : ℕ} {item : Item}
    (hitem : arena[slot]? = some item) (placed : List Item) :
  place start placed item = (placed.rightpad (slot + 1) default).set slot item ∨
    place start placed item = placed ++ [item] ∧ placed.length < slot
  := by
  obtain ⟨hslot, rfl⟩ := List.getElem?_eq_some_iff.mp hitem
  rw [place, harena.arenaIndex_eq hslot]
  dsimp only
  split
  next h =>
    right
    refine ⟨rfl, ?_⟩
    unfold kMaximumGap at h
    omega
  next => exact .inl rfl

/-- What the arena holds once an item has been put into its slot. -/
theorem getElem?_rightpad_set (placed : List Item) (slot : ℕ) (item : Item) (other : ℕ) :
  ((placed.rightpad (slot + 1) default).set slot item)[other]? =
    if other = slot then some item
    else if other < placed.length then placed[other]?
    else if other ≤ slot then some default
    else none
  := by
  rw [getElem?_set, rightpad, length_append, length_replicate,
    getElem?_append, getElem?_replicate]
  split_ifs <;> first | rfl | omega

/-- Nothing but the item and placeholders is put in, and nothing is moved. -/
theorem getElem?_place (harena : Positional start arena) {slot : ℕ} {item : Item}
    (hitem : arena[slot]? = some item) {placed : List Item} {other : ℕ} {found : Item}
    (hfound : (place start placed item)[other]? = some found) :
  found = item ∨ found = default ∨ placed[other]? = some found
  := by
  obtain hplace | ⟨hplace, -⟩ := place_slot harena hitem placed <;> rw [hplace] at hfound
  · rw [getElem?_rightpad_set] at hfound
    split_ifs at hfound
    · exact .inl (Option.some.inj hfound).symm
    · exact .inr (.inr hfound)
    · exact .inr (.inl (Option.some.inj hfound).symm)
  · rw [getElem?_append] at hfound
    split at hfound
    next => exact .inr (.inr hfound)
    next => exact .inl (by simpa using mem_of_getElem? hfound)

theorem length_le_length_place (start : String) (placed : List Item) (item : Item) :
  placed.length ≤ (place start placed item).length
  := by
  unfold place
  split
  · split <;> simp [rightpad]
  · simp

namespace Positional

theorem nodup_refs (harena : Positional start arena) :
  (arena.map selfRefOf).Nodup
  := by
  rw [nodup_iff_injective_getElem]
  intro ⟨slot, hslot⟩ ⟨other, hother⟩ heq
  rw [length_map] at hslot hother
  simp only [getElem_map, harena.named slot hslot, harena.named other hother] at heq
  exact Fin.ext (slotRef_injective start heq)

/-- An item is in one slot only. -/
theorem slot_unique (harena : Positional start arena) {slot other : ℕ} {item : Item}
    (hslot : arena[slot]? = some item) (hother : arena[other]? = some item) :
  slot = other
  := by
  obtain ⟨h, heq⟩ := List.getElem?_eq_some_iff.mp hslot
  obtain ⟨h', heq'⟩ := List.getElem?_eq_some_iff.mp hother
  apply slotRef_injective start
  rw [← harena.named slot h, ← harena.named other h', heq, heq']

theorem nodup (harena : Positional start arena) :
  arena.Nodup
  := harena.nodup_refs.of_map

theorem ne_default (harena : Positional start arena) {item : Item} (hitem : item ∈ arena) :
  item ≠ default
  := by
  rintro rfl
  obtain ⟨slot, h, heq⟩ := getElem_of_mem hitem
  apply slotRef_ne_empty start slot
  rw [← harena.named slot h, heq, selfRefOf_default]

end Positional

variable {item : Item} {coming placed : List Item}

/-- The next item goes into its slot, or is doomed. -/
theorem InPlace.step (h : InPlace arena (item :: coming) placed)
    (harena : Positional start arena) (hitem : item ∈ arena) (hnew : item ∉ coming) :
  InPlace arena coming (place start placed item) ∨
    Doomed arena coming (place start placed item)
  := by
  obtain ⟨slot, hslot⟩ := List.getElem?_of_mem hitem
  obtain hplace | ⟨hplace, hlt⟩ := place_slot harena hslot placed <;> rw [hplace]
  · left
    constructor
    · intro other found hfound
      rw [getElem?_rightpad_set] at hfound
      split_ifs at hfound with heq
      · obtain rfl := Option.some.inj hfound
        exact .inr (heq ▸ hslot)
      · exact h.blank other found hfound
      · exact .inl (Option.some.inj hfound).symm
    · intro other owner howner
      rw [getElem?_rightpad_set]
      obtain hcoming | hold := h.seated other owner howner
      · obtain rfl | hcoming := List.mem_cons.mp hcoming
        · exact .inr (if_pos (harena.slot_unique howner hslot))
        · exact .inl hcoming
      · right
        split_ifs with heq hlt
        · subst heq
          rw [← hslot, howner]
        · exact hold
        all_goals exact absurd (List.getElem?_eq_some_iff.mp hold).1 hlt
  · right
    obtain ⟨hlength, -⟩ := List.getElem?_eq_some_iff.mp hslot
    have howner : arena[placed.length]? = some arena[placed.length] :=
      List.getElem?_eq_getElem (hlt.trans hlength)
    have hne : arena[placed.length] ≠ item := by
      intro heq
      rw [heq] at howner
      exact hlt.ne (harena.slot_unique howner hslot)
    refine ⟨item, hitem, hnew, .inr ⟨placed.length, arena[placed.length], howner, ?_, hne, ?_, ?_⟩⟩
    · obtain hcoming | hold := h.seated _ _ howner
      · exact (List.mem_cons.mp hcoming).resolve_left hne
      · simp at hold
    · simp
    · intro other hother
      by_contra hother_ne
      have hlt' : other < placed.length := by
        have := (List.getElem?_eq_some_iff.mp hother).1
        simp at this
        omega
      rw [List.getElem?_append_left hlt'] at hother
      obtain hblank | hseat := h.blank other item hother
      · exact harena.ne_default hitem hblank
      · have := harena.slot_unique hseat hslot
        omega

/-- A doomed item stays doomed. -/
theorem Doomed.step (h : Doomed arena (item :: coming) placed)
    (harena : Positional start arena) (hitem : item ∈ arena) :
  Doomed arena coming (place start placed item)
  := by
  obtain ⟨lost, hlost, hdone, hfate⟩ := h
  obtain ⟨hne, hdone⟩ := not_or.mp (mt mem_cons.mpr hdone)
  obtain ⟨slot, hslot⟩ := getElem?_of_mem hitem
  have hstays : ∀ other : ℕ, (place start placed item)[other]? = some lost →
      placed[other]? = some lost := by
    intro other hother
    obtain heq | hblank | hold := getElem?_place harena hslot hother
    · exact absurd heq hne
    · exact absurd hblank (harena.ne_default hlost)
    · exact hold
  refine ⟨lost, hlost, hdone, ?_⟩
  obtain hgone | ⟨seat, owner, howner, hcoming, hother, hlt, honly⟩ := hfate
  · left
    intro hmem
    obtain ⟨other, hother⟩ := getElem?_of_mem hmem
    exact hgone (mem_of_getElem? (hstays other hother))
  · obtain rfl | hcoming := mem_cons.mp hcoming
    · -- the owner of the seat has come
      left
      intro hmem
      obtain ⟨other, hfound⟩ := getElem?_of_mem hmem
      obtain rfl := honly other (hstays other hfound)
      obtain rfl := harena.slot_unique howner hslot
      obtain hplace | ⟨-, hlt'⟩ := place_slot harena hslot placed
      · rw [hplace, getElem?_rightpad_set, if_pos rfl] at hfound
        exact hother (Option.some.inj hfound)
      · omega
    · right
      refine ⟨seat, owner, howner, hcoming, hother, ?_, fun other hfound => ?_⟩
      · exact hlt.trans_le (length_le_length_place start placed item)
      · exact honly other (hstays other hfound)

/-- Putting all items in leaves each in its slot, or one of them lost. -/
theorem inPlace_or_doomed (harena : Positional start arena) (hnodup : coming.Nodup)
    (hmem : ∀ item ∈ coming, item ∈ arena)
    (h : InPlace arena coming placed ∨ Doomed arena coming placed) :
  InPlace arena [] (coming.foldl (place start) placed) ∨
    Doomed arena [] (coming.foldl (place start) placed)
  := by
  induction coming generalizing placed with
  | nil => exact h
  | cons item coming ih =>
    obtain ⟨hnew, hnodup⟩ := nodup_cons.mp hnodup
    have hitem := hmem item mem_cons_self
    apply ih hnodup fun other hother => hmem other (mem_cons_of_mem item hother)
    obtain hinPlace | hdoomed := h
    · exact hinPlace.step harena hitem hnew
    · exact .inr (hdoomed.step harena hitem)

/-- A fold of all items that holds the arena is the arena. -/
theorem eq_of_held_foldl [DecidableEq Item] (harena : Positional start arena)
    (hperm : coming.Perm arena) (hheld : Held (coming.foldl (place start) []) arena) :
  coming.foldl (place start) [] = arena
  := by
  have hinit : InPlace arena coming [] :=
    ⟨by simp, fun slot item hitem => .inl (hperm.mem_iff.mpr (mem_of_getElem? hitem))⟩
  have hnodup : coming.Nodup := hperm.nodup_iff.mpr harena.nodup
  obtain hinPlace | ⟨item, hitem, -, hlost | ⟨_, _, _, hcoming, _⟩⟩ :=
    inPlace_or_doomed harena hnodup (fun item => hperm.mem_iff.mp) (.inl hinit)
  · apply ext_getElem?
    intro slot
    by_cases h : slot < arena.length
    · have hslot := getElem?_eq_getElem h
      rw [hslot]
      exact (hinPlace.seated slot _ hslot).resolve_left not_mem_nil
    · have hlength := hheld.length
      rw [getElem?_eq_none (by omega), getElem?_eq_none (by omega)]
  · exact absurd (mem_of_holder (hheld.holder_eq hitem)).1 hlost
  · exact absurd hcoming not_mem_nil

end Arena

/-! ### Rebuilding the document -/

/-- References into arenas whose prefixes differ early are different. -/
theorem slotRef_ne {start start' : String} (hlength : 4 ≤ start.toList.length)
    (hlength' : 4 ≤ start'.toList.length) (hne : start.toList.take 4 ≠ start'.toList.take 4)
    (index index' : ℕ) :
  slotRef start index ≠ slotRef start' index'
  := by
  intro heq
  apply hne
  have := congrArg (fun ref => ref.toList.take 4) heq
  simpa [take_append_of_le_length, hlength, hlength'] using this

theorem Positional.disjoint_refs {Item Item' : Type} [ArenaItem Item] [ArenaItem Item']
    {start start' : String} {arena : List Item} {arena' : List Item'}
    (harena : Positional start arena) (harena' : Positional start' arena')
    (hlength : 4 ≤ start.toList.length) (hlength' : 4 ≤ start'.toList.length)
    (hne : start.toList.take 4 ≠ start'.toList.take 4) :
  List.Disjoint (arena.map selfRefOf) (arena'.map selfRefOf)
  := by
  intro ref hmem hmem'
  obtain ⟨item, hitem, rfl⟩ := mem_map.mp hmem
  obtain ⟨item', hitem', heq⟩ := mem_map.mp hmem'
  obtain ⟨index, h, rfl⟩ := getElem_of_mem hitem
  obtain ⟨index', h', rfl⟩ := getElem_of_mem hitem'
  rw [harena.named index h, harena'.named index' h'] at heq
  exact slotRef_ne hlength hlength' hne index index' heq.symm

/-- The items of a document with positional arenas carry different references. -/
theorem Document.Positional.nodup_refs {document : Document} (h : document.Positional) :
  (document.slots.map Slot.ref).Nodup
  := by
  have hrefs : document.slots.map Slot.ref =
      document.texts.map selfRefOf ++ document.tables.map selfRefOf ++
        document.pictures.map selfRefOf ++ document.groups.map selfRefOf := by
    have htexts : document.texts.map (Slot.ref ∘ Slot.text) = document.texts.map selfRefOf :=
      map_congr_left fun item _ => selfRef_textView item
    simp only [Document.slots, map_append, map_map, htexts]
    rfl
  have htables := h.texts.disjoint_refs h.tables (by decide) (by decide) (by decide)
  have hpictures := h.texts.disjoint_refs h.pictures (by decide) (by decide) (by decide)
  have hgroups := h.texts.disjoint_refs h.groups (by decide) (by decide) (by decide)
  have hpictures' := h.tables.disjoint_refs h.pictures (by decide) (by decide) (by decide)
  have hgroups' := h.tables.disjoint_refs h.groups (by decide) (by decide) (by decide)
  have hgroups'' := h.pictures.disjoint_refs h.groups (by decide) (by decide) (by decide)
  rw [hrefs, nodup_append', nodup_append', nodup_append']
  refine ⟨⟨⟨h.texts.nodup_refs, h.tables.nodup_refs, htables⟩, h.pictures.nodup_refs, ?_⟩,
    h.groups.nodup_refs, ?_⟩
  · exact disjoint_append_left.mpr ⟨hpictures, hpictures'⟩
  · exact disjoint_append_left.mpr
      ⟨disjoint_append_left.mpr ⟨hgroups, hgroups'⟩, hgroups''⟩

/-- The fold of the events of the pages of a document. -/
def foldPages (document : Document) (source : TextSource) (start : ℕ) : Document :=
  ((projectPageData document source start).1.foldl PageFold.fold {}).document

/-- The events of the pages of a document and the repair event rebuild the document. -/
theorem foldPages_repaired {document : Document} (hpositional : document.Positional)
    (hnames : document.namesAPage = true) (source : TextSource) (start : ℕ)
    (collector : Collector) :
  match repairDelta (foldPages document source start) document ∅ collector with
  | some delta => ∃ result,
      applyRepairDelta delta (foldPages document source start) = some result ∧
      SameContent result document
  | none => SameContent (foldPages document source start) document
  := by
  cases h : repairDelta (foldPages document source start) document ∅ collector with
  | some delta =>
    obtain rfl := eq_deltaFor_of_repairDelta h
    exact applyRepairDelta_deltaFor _ hpositional ∅ collector
  | none =>
    obtain ⟨log, numbers, hpages, hlands⟩ :=
      exists_lands hpositional.nodup_refs hnames source start
    have hfill := PageFold.filled_foldl_fold {} (projectPageData document source start).1
    have hdistributes : Distributes document (projectPageData document source start).1 := by
      rw [hpages]
      exact distributes_pageEvents (hlands.increasing.imp ne_of_lt) hlands.mem_numbers
        hlands.items
    apply sameContent_of_repairDelta_eq_none h <;> intro hheld
    · rw [foldPages, hfill.texts] at hheld ⊢
      exact eq_of_held_foldl hpositional.texts hdistributes.texts hheld
    · rw [foldPages, hfill.tables] at hheld ⊢
      exact eq_of_held_foldl hpositional.tables hdistributes.tables hheld
    · rw [foldPages, hfill.pictures] at hheld ⊢
      exact eq_of_held_foldl hpositional.pictures hdistributes.pictures hheld
    · rw [foldPages, hfill.groups] at hheld ⊢
      exact eq_of_held_foldl hpositional.groups hdistributes.groups hheld

/-- A document whose first text is on its last page, and whose table is in the furniture. -/
def lateFirst : Document where
  body := some { children := [⟨"#/texts/1"⟩, ⟨"#/texts/0"⟩] }
  furniture := some { children := [⟨"#/tables/0"⟩] }
  texts := [.code { selfRef := "#/texts/0", text := "late", prov := [{ pageNo := 2 }] },
    .code { selfRef := "#/texts/1", text := "early", prov := [{ pageNo := 1 }] }]
  tables := [{ selfRef := "#/tables/0" }]
  pages := Finmap.singleton 2 { pageNo := 7 }

/-- The pages of a document put a high slot before a low one. -/
theorem foldPages_repaired_lateFirst :
  match repairDelta (foldPages lateFirst .ocr 0) lateFirst ∅ .xml with
  | some delta => ∃ result,
      applyRepairDelta delta (foldPages lateFirst .ocr 0) = some result ∧
      SameContent result lateFirst
  | none => SameContent (foldPages lateFirst .ocr 0) lateFirst
  := @foldPages_repaired lateFirst (by decide) (by decide) .ocr 0 .xml

end GRParse
