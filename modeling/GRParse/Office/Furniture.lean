import GRParse.Office.ArenaLinks

/-!
# Moves in the arena

`move_child_after` permutes the children of one node.  `move_to_furniture` links the moved
item to the furniture and sweeps over what is below it; the sweep meets no item twice, so it
ends, and it takes every picture, text and group it meets into the furniture layer.  A table
it passes by: the items below a moved one are all in the furniture layer and without a box
just when the tables among them already were.
-/

namespace GRParse.Office

open List Place

/-! ### Moving a child -/

variable (children : List String)

theorem swapElements_perm (i j : ℕ) :
  (swapElements children i j).Perm children
  := by
  unfold swapElements
  split
  · next x y hx hy =>
    obtain ⟨hi, rfl⟩ := List.getElem?_eq_some_iff.mp hx
    obtain ⟨hj, rfl⟩ := List.getElem?_eq_some_iff.mp hy
    apply List.set_set_perm hi hj
  · rfl

theorem rotateDown_perm (start steps : ℕ) :
  (rotateDown children start steps).Perm children
  := by
  induction steps generalizing children with
  | zero => rfl
  | succ steps ih => exact (ih _).trans (swapElements_perm _ _ _)

theorem rotateUp_perm (start steps : ℕ) :
  (rotateUp children start steps).Perm children
  := by
  induction steps generalizing children start with
  | zero => rfl
  | succ steps ih => exact (ih _ _).trans (swapElements_perm _ _ _)

theorem rotateTo_perm (start stop : ℕ) :
  (rotateTo children start stop).Perm children
  := by
  unfold rotateTo
  split
  · rfl
  · split
    · apply rotateDown_perm
    · apply rotateUp_perm

/-- A child is moved among the others, and nothing else happens to them. -/
theorem moveAfter_perm (childRef afterRef : String) :
  (moveAfter children childRef afterRef).Perm children
  := by
  unfold moveAfter
  split
  · rfl
  · split
    · apply rotateTo_perm
    · apply rotateTo_perm

variable {d : Document} {item : Item} {arena : Arena} {index : ℕ}

namespace Document

theorem Linked.moveChildAfter {d : Document} (hd : d.Linked)
    (parentRef childRef afterRef : String) :
  (d.moveChildAfter parentRef childRef afterRef).Linked
  := by
  apply hd.map (item_modify _ _ _)
  case hself => intro place item; split <;> rfl
  case hparent => intro place item; split <;> rfl
  case hchildren =>
    intro place item
    split
    · apply moveAfter_perm
    · rfl
  case hprov => intro index item h; split <;> exact h

/-! ### The links of a moved item -/

/-- What becomes of the item at a node when the links of another are rewritten. -/
def relinked (moved parent : Place) (place : Place) (item : Item) : Item :=
  { item with
    parent := if place = moved then "#/furniture" else item.parent
    children :=
      (if place = parent then item.children.erase moved.ref else item.children) ++
        if place = .furniture then [moved.ref] else [] }

theorem item_relink {moved parent : Place} (hitem : d.item moved = some item)
    (hgroup : parent.IsGroup) (hsome : (d.item parent).isSome)
    (hparent : item.parent = parent.ref) (place : Place) :
  (d.relink moved moved.ref).item place = (d.item place).map (relinked moved parent place)
  := by
  have hfurniture : ∀ d : Document, d.linkPlace "#/furniture" = .furniture :=
    fun d => d.linkPlace_ref .furniture trivial rfl
  have hfound : ∀ f, (d.modify moved f).groupByRef parent.ref = parent := by
    intro f
    apply groupByRef_ref _ _ hgroup
    rwa [item_modify, Option.isSome_map]
  simp only [relink, hitem, Option.map_some, Option.getD_some, hparent, hfound, linkChild,
    hfurniture, item_modify, Option.map_map]
  congr 1
  funext old
  simp only [relinked, Function.comp]
  split_ifs <;> simp

/-- Rewriting the links of an item below a root or a group keeps the document linked. -/
theorem Linked.relink {d : Document} (hd : d.Linked) {arena : Arena} {index : ℕ} {item : Item}
    (hitem : d.item (.slot arena index) = some item) {parent : Place} (hgroup : parent.IsGroup)
    (hsome : (d.item parent).isSome) (hparent : item.parent = parent.ref) :
  (d.relink (.slot arena index) (Place.slot arena index).ref).Linked
  := by
  have hitems := item_relink hitem hgroup hsome hparent
  have hkept : ∀ place, ((d.relink (.slot arena index) (slot arena index).ref).item
      place).isSome = (d.item place).isSome := by
    intro place
    rw [hitems, Option.isSome_map]
  constructor
  case positional =>
    intro arena' index' new h
    rw [hitems, Option.map_eq_some_iff] at h
    obtain ⟨old, hold, rfl⟩ := h
    apply hd.positional _ _ _ hold
  case named =>
    intro arena' index' new h
    rw [hitems, Option.map_eq_some_iff] at h
    obtain ⟨old, hold, rfl⟩ := h
    by_cases hmoved : slot arena' index' = .slot arena index
    · exact ⟨.furniture, trivial, rfl, if_pos hmoved⟩
    · obtain ⟨parent', howner, hsome', heq⟩ := hd.named _ _ _ hold
      exact ⟨parent', howner, (hkept _).trans hsome', (if_neg hmoved).trans heq⟩
  case listed =>
    intro arena' index' new h place owner howner
    rw [hitems, Option.map_eq_some_iff] at h howner
    obtain ⟨old, hold, rfl⟩ := h
    obtain ⟨oldOwner, holdOwner, rfl⟩ := howner
    have hcount := hd.listed _ _ _ hold _ _ holdOwner
    simp only [relinked]
    rw [count_append]
    by_cases hmoved : slot arena' index' = .slot arena index
    · rw [hmoved] at hold hcount ⊢
      obtain rfl := Option.some.inj (hitem.symm.trans hold)
      have hfurniture : "#/furniture" = place.ref ↔ place = .furniture := by
        rw [eq_comm]
        exact @ref_inj place .furniture
      simp only [hparent, ref_inj] at hcount
      have herased : (if place = parent
          then oldOwner.children.erase (slot arena index).ref
          else oldOwner.children).count (slot arena index).ref = 0 := by
        split
        · next heq =>
          rw [count_erase_self, hcount, if_pos heq.symm]
        · next hne => rw [hcount, if_neg (Ne.symm hne)]
      rw [herased, zero_add]
      simp only [if_true, hfurniture]
      by_cases hplace : place = .furniture
      · rw [if_pos hplace, if_pos hplace, count_singleton_self]
      · rw [if_neg hplace, if_neg hplace, count_nil]
    · have hother : (slot arena index).ref ≠ (slot arena' index').ref :=
        fun heq => hmoved (ref_injective heq).symm
      have hkeptCount : (if place = parent
          then oldOwner.children.erase (slot arena index).ref
          else oldOwner.children).count (slot arena' index').ref =
            oldOwner.children.count (slot arena' index').ref := by
        split
        · exact count_erase_of_ne hother.symm
        · rfl
      have hadded : (if place = .furniture then [(slot arena index).ref]
          else []).count (slot arena' index').ref = 0 := by
        split
        · rw [count_singleton, beq_false_of_ne hother]
          rfl
        · rfl
      rw [hkeptCount, hadded, add_zero, hcount]
      simp only [hmoved, if_false]
  case children =>
    intro place owner howner ref href
    rw [hitems, Option.map_eq_some_iff] at howner
    obtain ⟨oldOwner, holdOwner, rfl⟩ := howner
    simp only [hkept]
    rcases mem_append.mp href with hold | hnew
    · apply hd.children _ _ holdOwner
      split at hold
      · exact mem_of_mem_erase hold
      · exact hold
    · refine ⟨arena, index, by rw [hitem]; rfl, ?_⟩
      split at hnew
      · exact mem_singleton.mp hnew
      · cases hnew
  case noFields =>
    intro index'
    rw [hitems, hitems, Option.map_eq_none_iff, Option.map_eq_none_iff]
    apply hd.noFields
  case groupProv =>
    intro index' group h
    rw [hitems, Option.map_eq_some_iff] at h
    obtain ⟨old, hold, rfl⟩ := h
    apply hd.groupProv _ _ hold

/-! ### The sweep -/

/-- The references a turn of the sweep pushes: the children of a group. -/
def below (d : Document) (ref : String) : List String :=
  (d.visit ref).2

theorem length_modify (d : Document) (place : Place) (f : Item → Item) (arena : Arena) :
  ((d.modify place f).items arena).length = (d.items arena).length
  := by
  cases place with
  | body => rfl
  | furniture => rfl
  | slot arena' index =>
    by_cases h : arena = arena'
    · subst h
      simp [modify]
    · simp [modify, h]

/-- What a reference names depends on the sizes of the arenas only. -/
theorem movable_congr {d d' : Document}
    (h : ∀ arena, (d'.items arena).length = (d.items arena).length) :
  d'.movable = d.movable
  := by
  funext ref
  simp only [movable, slotByRef, h]

theorem below_eq (d : Document) (ref : String) :
  d.below ref = match d.movable ref with
    | some (.slot .groups index) => ((d.item (.slot .groups index)).map Item.children).getD []
    | _ => []
  := by
  rw [below, visit]
  match d.movable ref with
  | none => rfl
  | some .body => rfl
  | some .furniture => rfl
  | some (.slot .texts _) => rfl
  | some (.slot .pictures _) => rfl
  | some (.slot .tables _) => rfl
  | some (.slot .fieldRegions _) => rfl
  | some (.slot .fieldItems _) => rfl
  | some (.slot .groups index) =>
    have := d.item_modify (.slot .groups index)
      (fun group => { group with contentLayer := .furniture }) (.slot .groups index)
    simp only [item, if_pos] at this ⊢
    rw [this, Option.map_map]
    rfl

/-- What becomes of the item at a node in the turn of a reference. -/
def swept (d : Document) (ref : String) (place : Place) (item : Item) : Item :=
  if d.movable ref = some place then
    match place with
    | .slot .groups _ => { item with contentLayer := .furniture }
    | _ => item.furnish
  else item

theorem item_visit (d : Document) (ref : String) (place : Place) :
  (d.visit ref).1.item place = (d.item place).map (d.swept ref place)
  := by
  unfold visit swept
  split
  · next index heq =>
    rw [item_modify, heq]
    congr 1
    funext old
    by_cases hplace : place = .slot .groups index
    · subst hplace
      simp
    · rw [if_neg hplace, if_neg (fun h => hplace (Option.some.inj h).symm)]
      rfl
  · next moved hother heq =>
    rw [item_modify, heq]
    congr 1
    funext old
    by_cases hplace : place = moved
    · subst hplace
      rw [if_pos rfl, if_pos rfl]
      split
      · exact absurd rfl (hother _)
      · rfl
    · rw [if_neg hplace, if_neg (fun h => hplace (Option.some.inj h).symm)]
      rfl
  · next heq =>
    simp [heq]

theorem length_visit (d : Document) (ref : String) (arena : Arena) :
  ((d.visit ref).1.items arena).length = (d.items arena).length
  := by
  unfold visit
  split
  · simp only [length_modify]
  · simp only [length_modify]
  · rfl

theorem swept_children (d : Document) (ref : String) (place : Place) (item : Item) :
  (d.swept ref place item).children = item.children
  := by
  unfold swept
  split
  · split <;> rfl
  · rfl

/-- The sweep changes nothing that is looked up. -/
theorem below_visit (d : Document) (ref : String) :
  (d.visit ref).1.below = d.below
  := by
  funext ref'
  rw [below_eq, below_eq, movable_congr (d.length_visit ref)]
  split
  · rw [item_visit, Option.map_map]
    congr 2
    funext item
    apply swept_children
  · rfl

/-- The sweep is the sweep of the worklist, with each turn made on the document. -/
theorem sweep_eq (d : Document) (fuel : ℕ) (pending : List String) :
  d.sweep fuel pending =
    (Worklist.sweep d.below fuel pending).map fun visited =>
      visited.foldl (fun d ref => (d.visit ref).1) d
  := by
  induction fuel generalizing d pending with
  | zero => cases pending <;> rfl
  | succ fuel ih =>
    cases pending with
    | nil => rfl
    | cons next pending =>
      rw [sweep, Worklist.sweep, ih, below_visit, Option.map_map, below]
      rfl

/-- The references of all items. -/
def itemRefs (d : Document) : List String :=
  Arena.all.flatMap fun arena =>
    (List.range (d.items arena).length).map fun index => (Place.slot arena index).ref

theorem length_itemRefs (d : Document) :
  d.itemRefs.length = d.size
  := by
  simp [itemRefs, size, length_flatMap]

theorem mem_itemRefs (d : Document) (ref : String) :
  ref ∈ d.itemRefs ↔
    ∃ arena index, (d.item (.slot arena index)).isSome ∧ ref = (Place.slot arena index).ref
  := by
  simp only [itemRefs, mem_flatMap, mem_map, mem_range, item_slot_isSome]
  constructor
  · rintro ⟨arena, -, index, hindex, rfl⟩
    exact ⟨arena, index, hindex, rfl⟩
  · rintro ⟨arena, index, hindex, rfl⟩
    exact ⟨arena, Arena.mem_all arena, index, hindex, rfl⟩

/-- A picture, a text or a group is found under its reference. -/
theorem movable_ref (d : Document) (h : (d.item (.slot arena index)).isSome) :
  d.movable (Place.slot arena index).ref =
    if arena = .pictures ∨ arena = .texts ∨ arena = .groups then some (.slot arena index)
    else none
  := by
  have hnot : ∀ arena', arena ≠ arena' →
      d.slotByRef arena' (slot arena index).ref = none := by
    intro arena' hne
    apply d.slotByRef_of_ne
    intro index' heq
    exact hne (slot.inj heq).1
  cases arena <;> simp [movable, hnot, d.slotByRef_slot h]

/-- What is pushed for an item of a linked document: the children of a group. -/
theorem mem_below_ref (h : d.item (.slot arena index) = some item) {ref : String} :
  ref ∈ d.below (Place.slot arena index).ref ↔ arena = .groups ∧ ref ∈ item.children
  := by
  rw [below_eq, movable_ref d (by rw [h]; rfl)]
  cases arena <;> simp [h]

/-- The sweep below an item of a linked document ends, when the item hangs at a root. -/
theorem Linked.exists_sweep {d : Document} (hd : d.Linked) {arena : Arena} {index : ℕ}
    {item : Item} (hitem : d.item (.slot arena index) = some item)
    (hroot : item.parent = Place.furniture.ref) :
  ∃ visited, Worklist.sweep d.below d.size [(Place.slot arena index).ref] = some visited
  := by
  have hparent : ∀ ref ∈ d.itemRefs, ∀ child ∈ d.below ref, ∃ arena index item group place,
      d.item (.slot arena index) = some item ∧ child = (slot arena index).ref ∧
        d.item place = some group ∧ ref = place.ref ∧ child ∈ group.children ∧
        item.parent = place.ref ∧ place ≠ .furniture := by
    intro ref href child hchild
    obtain ⟨arena, index, hsome, rfl⟩ := (d.mem_itemRefs ref).mp href
    obtain ⟨group, hgroup⟩ := Option.isSome_iff_exists.mp hsome
    obtain ⟨-, hmem⟩ := (mem_below_ref hgroup).mp hchild
    obtain ⟨arena', index', hsome', rfl⟩ := hd.children _ _ hgroup _ hmem
    obtain ⟨item', hitem'⟩ := Option.isSome_iff_exists.mp hsome'
    refine ⟨arena', index', item', group, _, hitem', rfl, hgroup, rfl, hmem, ?_, by simp⟩
    have hcount := hd.listed _ _ _ hitem' _ _ hgroup
    have hpos := count_pos_iff.mpr hmem
    by_contra hne
    rw [if_neg hne] at hcount
    omega
  refine @Worklist.exists_sweep _ _ d.itemRefs ?hclosed ?hnodup ?hunique _ _ [] ?hfuel ?hdistinct ?hnodes
    ?hdone
  case hclosed =>
    intro ref href child hchild
    obtain ⟨arena', index', item', group, place, hitem', rfl, -⟩ := hparent ref href child hchild
    exact (d.mem_itemRefs _).mpr ⟨arena', index', by rw [hitem']; rfl, rfl⟩
  case hnodup =>
    intro ref href
    rw [nodup_iff_count_le_one]
    intro child
    by_cases hchild : child ∈ d.below ref
    · obtain ⟨arena', index', item', group, place, hitem', rfl, hgroup, rfl, -, heq, -⟩ :=
        hparent ref href child hchild
      have hcount := hd.listed _ _ _ hitem' _ _ hgroup
      obtain ⟨arena'', index'', hsome, href'⟩ := (d.mem_itemRefs _).mp href
      rw [ref_inj] at href'
      subst href'
      have hbelow : d.below (slot arena'' index'').ref = group.children := by
        have hgroups := ((mem_below_ref hgroup).mp hchild).1
        subst hgroups
        rw [below_eq, movable_ref d hsome]
        simp [hgroup]
      rw [hbelow, hcount]
      split <;> omega
    · rw [count_eq_zero.mpr hchild]
      omega
  case hunique =>
    intro ref href ref' href' child hchild hchild'
    obtain ⟨arena', index', item', -, place, hitem', hname, -, rfl, -, heq, -⟩ :=
      hparent ref href child hchild
    obtain ⟨arena'', index'', item'', -, place', hitem'', hname', -, rfl, -, heq', -⟩ :=
      hparent ref' href' child hchild'
    have hsame := ref_injective (hname.symm.trans hname')
    rw [hsame, hitem''] at hitem'
    rw [← heq, ← heq', Option.some.inj hitem']
  case hfuel => simp [length_itemRefs]
  case hdistinct => simp
  case hnodes =>
    intro ref href
    obtain rfl := mem_singleton.mp href
    exact (d.mem_itemRefs _).mpr ⟨arena, index, by rw [hitem]; rfl, rfl⟩
  case hdone =>
    intro ref href child hchild hmem
    obtain rfl := mem_singleton.mp hmem
    obtain ⟨arena', index', item', -, place, hitem', hname, -, -, -, heq, hne⟩ :=
      hparent ref href _ hchild
    rw [← ref_injective hname, hitem] at hitem'
    rw [← Option.some.inj hitem', hroot, ref_inj] at heq
    exact absurd heq.symm hne

/-! ### What the sweep leaves behind -/

end Document

/-- An item in the furniture layer, without a box. -/
def Item.Furnished (item : Item) : Prop :=
  item.contentLayer = .furniture ∧ ∀ entry ∈ item.prov, entry.bbox = none

theorem Item.furnish_furnished (item : Item) :
  item.furnish.Furnished
  := by
  refine ⟨rfl, ?_⟩
  intro entry hentry
  obtain ⟨old, -, rfl⟩ := mem_map.mp hentry
  rfl

variable {place : Place}

namespace Document

/-- A turn of the sweep for every reference of a list. -/
def visitAll (d : Document) (refs : List String) : Document :=
  refs.foldl (fun d ref => (d.visit ref).1) d

theorem swept_furnished {ref : String} (h : item.Furnished) :
  (d.swept ref place item).Furnished
  := by
  unfold swept
  split
  · split
    · exact ⟨rfl, h.2⟩
    · apply Item.furnish_furnished
  · exact h

theorem Linked.visit {d : Document} (hd : d.Linked) (ref : String) :
  (d.visit ref).1.Linked
  := by
  apply hd.map (d.item_visit ref)
  case hself =>
    intro place item
    unfold swept
    split
    · split <;> rfl
    · rfl
  case hparent =>
    intro place item
    unfold swept
    split
    · split <;> rfl
    · rfl
  case hchildren =>
    intro place item
    rw [swept_children]
  case hprov =>
    intro index item h
    unfold swept
    split
    · exact h
    · exact h

theorem Linked.visitAll {d : Document} (hd : d.Linked) (refs : List String) :
  (d.visitAll refs).Linked
  := by
  induction refs generalizing d with
  | nil => exact hd
  | cons ref refs ih => exact ih (hd.visit ref)

/-- An item stays furnished, and its links as they were. -/
theorem visitAll_keeps (refs : List String) (hitem : d.item place = some item) :
  ∃ new, (d.visitAll refs).item place = some new ∧ (item.Furnished → new.Furnished)
  := by
  induction refs generalizing d item with
  | nil => exact ⟨item, hitem, id⟩
  | cons ref refs ih =>
    obtain ⟨new, hnew, hkept⟩ := ih (d := (d.visit ref).1)
      (by rw [item_visit, hitem, Option.map_some])
    exact ⟨new, hnew, fun h => hkept (swept_furnished h)⟩

/-- A table is left as it is. -/
theorem visitAll_table (refs : List String) (index : ℕ) :
  (d.visitAll refs).item (.slot .tables index) = d.item (.slot .tables index)
  := by
  induction refs generalizing d with
  | nil => rfl
  | cons ref refs ih =>
    rw [visitAll, foldl_cons, ← visitAll, ih, item_visit]
    have hnot : d.movable ref ≠ some (.slot .tables index) := by
      unfold movable
      split
      · simp
      · split
        · simp
        · simp
    cases d.item (.slot .tables index) with
    | none => rfl
    | some item => simp [swept, hnot]

/-- A picture, a text or a group is furnished once the sweep has met it. -/
theorem Linked.visitAll_furnished (hd : d.Linked) {refs : List String}
    (harena : arena = .pictures ∨ arena = .texts ∨ arena = .groups)
    (hitem : d.item (.slot arena index) = some item) (hmem : (Place.slot arena index).ref ∈ refs) :
  ∃ new, (d.visitAll refs).item (.slot arena index) = some new ∧ new.Furnished
  := by
  induction refs generalizing d item with
  | nil => cases hmem
  | cons ref refs ih =>
    have hnext : (d.visit ref).1.item (.slot arena index) =
        some (d.swept ref (.slot arena index) item) := by
      rw [item_visit, hitem, Option.map_some]
    rcases mem_cons.mp hmem with rfl | hmem
    · have hfurnished : (d.swept (slot arena index).ref (.slot arena index)
          item).Furnished := by
        unfold swept
        rw [movable_ref d (by rw [hitem]; rfl), if_pos harena, if_pos rfl]
        split
        · next index' heq =>
          obtain ⟨rfl, rfl⟩ := slot.inj heq
          refine ⟨rfl, ?_⟩
          simp [hd.groupProv _ _ hitem]
        · apply Item.furnish_furnished
      obtain ⟨new, hnew, hkept⟩ := visitAll_keeps refs hnext
      exact ⟨new, hnew, hkept hfurnished⟩
    · exact ih (hd.visit ref) hnext hmem

/-! ### The move -/

/-- The nodes at or below one, through groups. -/
inductive Below (d : Document) (top : Place) : Place → Prop
  | top : Below d top top
  | child {index : ℕ} {group : Item} {place : Place} :
    Below d top (.slot .groups index) → d.item (.slot .groups index) = some group →
    place.ref ∈ group.children → Below d top place

/-- What was below the moved item is met by the sweep. -/
theorem reaches_of_below {moved parent : Place} (hitem : d.item moved = some item)
    (hgroup : parent.IsGroup) (hsome : (d.item parent).isSome)
    (hparent : item.parent = parent.ref) (h : d.Below moved place) :
  Worklist.Reaches (d.relink moved moved.ref).below moved.ref place.ref
  := by
  induction h with
  | top => exact .refl
  | @child index group place _ hgroup' hmem ih =>
    by_cases hmoved : place = moved
    · rw [hmoved]
    · apply ih.tail
      have hnew := item_relink hitem hgroup hsome hparent (.slot .groups index)
      rw [hgroup', Option.map_some] at hnew
      apply (mem_below_ref hnew).mpr
      refine ⟨rfl, mem_append_left _ ?_⟩
      split
      · exact (mem_erase_of_ne (fun heq => hmoved (ref_injective heq))).mpr hmem
      · exact hmem

/-- An item that the sweep does not look for is a table. -/
theorem Linked.tables_of_not (hd : d.Linked)
    (harena : ¬(arena = .pictures ∨ arena = .texts ∨ arena = .groups))
    (hsome : (d.item (.slot arena index)).isSome) :
  arena = .tables
  := by
  obtain ⟨hregions, hfields⟩ := hd.noFields index
  cases arena <;> simp_all

/-- What is below an item is an item. -/
theorem Linked.below_slot (hd : d.Linked) (hthere : (d.item (.slot arena index)).isSome)
    (h : d.Below (.slot arena index) place) :
  ∃ arena' index', place = .slot arena' index' ∧ (d.item place).isSome
  := by
  cases h with
  | top => exact ⟨arena, index, rfl, hthere⟩
  | child _ hgroup hmem =>
    obtain ⟨arena', index', hsome, heq⟩ := hd.children _ _ hgroup _ hmem
    obtain rfl := ref_injective heq
    exact ⟨arena', index', rfl, hsome⟩

/-- Nothing is below an item that is no group. -/
theorem Below.eq_top (harena : arena ≠ .groups) (h : d.Below (.slot arena index) place) :
  place = .slot arena index
  := by
  induction h with
  | top => rfl
  | child _ _ _ ih => exact absurd (slot.inj ih).1.symm harena

/-- What `move_to_furniture` does to an item below a root or a group. -/
theorem Linked.moveToFurniture {d : Document} (hd : d.Linked) {arena : Arena} {index : ℕ}
    {item : Item} (hitem : d.item (.slot arena index) = some item) {parent : Place}
    (hgroup : parent.IsGroup) (hsome : (d.item parent).isSome)
    (hparent : item.parent = parent.ref) :
  ∃ after, d.moveToFurniture (Place.slot arena index).ref = some after ∧ after.Linked ∧
    (∀ place item, d.item place = some item →
      ∃ new, after.item place = some new ∧ (item.Furnished → new.Furnished)) ∧
    ((∀ place item, d.Below (.slot arena index) place → after.item place = some item →
        item.Furnished) ↔
      ∀ index' table, d.Below (.slot arena index) (.slot .tables index') →
        d.item (.slot .tables index') = some table → table.Furnished)
  := by
  have hthere : (d.item (.slot arena index)).isSome := by
    rw [hitem]
    rfl
  unfold Document.moveToFurniture
  rw [movable_ref d hthere]
  by_cases harena : arena = .pictures ∨ arena = .texts ∨ arena = .groups
  · rw [if_pos harena]
    have hlinked := hd.relink hitem hgroup hsome hparent
    have hitems := item_relink hitem hgroup hsome hparent
    have hmoved := hitems (.slot arena index)
    rw [hitem, Option.map_some] at hmoved
    obtain ⟨visited, hvisited⟩ := hlinked.exists_sweep hmoved (if_pos rfl)
    simp only [sweep_eq, hvisited, Option.map_some]
    refine ⟨_, rfl, hlinked.visitAll visited, ?_, ?_⟩
    · intro place old hold
      obtain ⟨new, hnew, hkept⟩ := visitAll_keeps visited
        (by rw [hitems, hold, Option.map_some])
      exact ⟨new, hnew, hkept⟩
    · constructor
      · intro hall index' table hbelow htable
        have := hall (.slot .tables index')
          (relinked (.slot arena index) parent (.slot .tables index') table) hbelow
          (by rw [← Document.visitAll, visitAll_table, hitems, htable, Option.map_some])
        exact this
      · intro htables place new hbelow hnew
        obtain ⟨arena', index', rfl, hsome'⟩ := hd.below_slot hthere hbelow
        obtain ⟨old, hold⟩ := Option.isSome_iff_exists.mp hsome'
        have hrelinked := hitems (.slot arena' index')
        rw [hold, Option.map_some] at hrelinked
        by_cases harena' : arena' = .pictures ∨ arena' = .texts ∨ arena' = .groups
        · have hmet := (Worklist.mem_of_sweep hvisited (slot arena' index').ref).mpr
            ⟨_, mem_singleton_self _,
              reaches_of_below hitem hgroup hsome hparent hbelow⟩
          obtain ⟨furnished, heq, hfurnished⟩ :=
            hlinked.visitAll_furnished harena' hrelinked hmet
          obtain rfl := Option.some.inj (hnew.symm.trans heq)
          exact hfurnished
        · have htable : arena' = .tables := hd.tables_of_not harena' hsome'
          subst htable
          rw [← Document.visitAll, visitAll_table, hrelinked] at hnew
          rw [← Option.some.inj hnew]
          have hfurnished := htables _ old hbelow hold
          exact hfurnished
  · rw [if_neg harena]
    have htable : arena = .tables := hd.tables_of_not harena hthere
    subst htable
    refine ⟨d, rfl, hd, fun place item h => ⟨item, h, id⟩, ?_⟩
    constructor
    · intro hall index' table hbelow htable
      exact hall _ table hbelow htable
    · intro htables place new hbelow hnew
      obtain rfl := hbelow.eq_top (by simp)
      exact htables _ _ .top hnew

end Document

/-! ### Runs -/

/-- A call of the arena.  What is added comes with the provenance that the caller writes
through the pointer it is given. -/
inductive Call where
  | addGroup (parentRef : String) (layer : ContentLayer)
  | addText (parentRef : String) (layer : ContentLayer) (prov : List ProvenanceItem)
  | addPicture (parentRef : String) (layer : ContentLayer) (prov : List ProvenanceItem)
  | addTable (parentRef : String) (layer : ContentLayer) (prov : List ProvenanceItem)
  | moveChildAfter (parentRef childRef afterRef : String)
  | moveToFurniture (ref : String)

namespace Document

/-- The provenance of the item at a node, as its caller writes it. -/
def writeProv (d : Document) (place : Place) (prov : List ProvenanceItem) : Document :=
  d.modify place fun item => { item with prov := prov }

/-- The document after a call; none when the call does not return. -/
def perform (d : Document) : Call → Option Document
  | .addGroup parentRef layer => some (d.addGroup parentRef layer)
  | .addText parentRef layer prov =>
    some ((d.addText layer parentRef).writeProv (.slot .texts (d.items .texts).length) prov)
  | .addPicture parentRef layer prov =>
    some ((d.addPicture layer parentRef).writeProv
      (.slot .pictures (d.items .pictures).length) prov)
  | .addTable parentRef layer prov =>
    some ((d.addTable layer parentRef).writeProv (.slot .tables (d.items .tables).length) prov)
  | .moveChildAfter parentRef childRef afterRef =>
    some (d.moveChildAfter parentRef childRef afterRef)
  | .moveToFurniture ref => d.moveToFurniture ref

/-- A reference names a node that items are added to. -/
def NamesOwner (d : Document) (ref : String) : Prop :=
  ∃ place : Place, place.IsOwner ∧ (d.item place).isSome ∧ ref = place.ref

/-- The calls that may be made: parents are there, and what is moved to the furniture is an
item whose parent is a root or a group. -/
def Admits (d : Document) : Call → Prop
  | .addGroup parentRef _ | .addText parentRef _ _ | .addPicture parentRef _ _
  | .addTable parentRef _ _ => d.NamesOwner parentRef
  | .moveChildAfter _ _ _ => True
  | .moveToFurniture ref => ∃ arena index item parent,
      d.item (.slot arena index) = some item ∧ ref = (Place.slot arena index).ref ∧
        parent.IsGroup ∧ (d.item parent).isSome ∧ item.parent = parent.ref

/-- Two documents that differ in the order of one list of children at most. -/
def PermutesOne (d after : Document) : Prop :=
  ∃ place : Place, ∀ other, other ≠ place ∧ after.item other = d.item other ∨
    other = place ∧ ∃ item children, d.item place = some item ∧
      children.Perm item.children ∧ after.item place = some { item with children := children }

/-- Everything at or below the item that was moved is in the furniture layer, without a
box. -/
def FurnishedBelow (d after : Document) (ref : String) : Prop :=
  ∀ arena index place item, ref = (Place.slot arena index).ref →
    d.Below (.slot arena index) place → after.item place = some item → item.Furnished

/-- The tables at or below an item are in the furniture layer, without a box. -/
def TablesFurnished (d : Document) (ref : String) : Prop :=
  ∀ arena index index' table, ref = (Place.slot arena index).ref →
    d.Below (.slot arena index) (.slot .tables index') →
    d.item (.slot .tables index') = some table → table.Furnished

/-- An item stays furnished when another is added. -/
theorem addItem_keeps (arena : Arena) (layer : ContentLayer) {parentRef : String}
    (howner : d.NamesOwner parentRef) (hitem : d.item place = some item) :
  ∃ new, (d.addItem arena layer parentRef).item place = some new ∧
    (item.Furnished → new.Furnished)
  := by
  obtain ⟨parent, hlists, hsome, rfl⟩ := howner
  have hold : place ≠ .slot arena (d.items arena).length := by
    rintro rfl
    have := (d.item_slot_isSome _ _).mp (by rw [hitem]; rfl)
    omega
  refine ⟨_, by rw [item_addItem d arena layer hlists hsome, if_neg hold, hitem]; rfl, ?_⟩
  intro h
  split <;> exact h

theorem writeProv_keeps (written : Place) (prov : List ProvenanceItem) (hother : place ≠ written)
    (hitem : d.item place = some item) :
  (d.writeProv written prov).item place = some item
  := by
  rw [writeProv, item_modify, if_neg hother, hitem]
  rfl

theorem Linked.writeProv {d : Document} (hd : d.Linked) {arena : Arena}
    (harena : arena ≠ .groups) (index : ℕ) (prov : List ProvenanceItem) :
  (d.writeProv (.slot arena index) prov).Linked
  := by
  apply hd.map (item_modify _ _ _)
  case hself => intro place item; split <;> rfl
  case hparent => intro place item; split <;> rfl
  case hchildren => intro place item; split <;> rfl
  case hprov =>
    intro index' item h
    rw [if_neg]
    · exact h
    · intro heq
      exact harena (slot.inj heq).1.symm

/-- An item is added, and its provenance written. -/
theorem Linked.addWith (hd : d.Linked) (arena : Arena)
    (harena : arena ≠ .fieldRegions ∧ arena ≠ .fieldItems ∧ arena ≠ .groups)
    (layer : ContentLayer) {parentRef : String} (howner : d.NamesOwner parentRef)
    (prov : List ProvenanceItem) :
  ((d.addItem arena layer parentRef).writeProv
      (.slot arena (d.items arena).length) prov).Linked ∧
    ∀ place item, d.item place = some item → ∃ new,
      ((d.addItem arena layer parentRef).writeProv
        (.slot arena (d.items arena).length) prov).item place = some new ∧
      (item.Furnished → new.Furnished)
  := by
  constructor
  · obtain ⟨parent, hlists, hsome, rfl⟩ := howner
    exact (hd.addItem ⟨harena.1, harena.2.1⟩ layer hlists hsome).writeProv harena.2.2 _ prov
  · intro place item hitem
    have hold : place ≠ .slot arena (d.items arena).length := by
      rintro rfl
      have := (d.item_slot_isSome _ _).mp (by rw [hitem]; rfl)
      omega
    obtain ⟨new, hnew, hkept⟩ := addItem_keeps arena layer howner hitem
    exact ⟨new, writeProv_keeps _ prov hold hnew, hkept⟩

theorem moveChildAfter_permutes (d : Document) (parentRef childRef afterRef : String) :
  d.PermutesOne (d.moveChildAfter parentRef childRef afterRef)
  := by
  refine ⟨d.groupByRef parentRef, ?_⟩
  intro other
  by_cases hother : other = d.groupByRef parentRef
  · subst hother
    obtain ⟨item, hitem⟩ := Option.isSome_iff_exists.mp (d.groupByRef_isSome parentRef)
    refine Or.inr ⟨rfl, item, _, hitem, moveAfter_perm _ childRef afterRef, ?_⟩
    rw [Document.moveChildAfter, item_modify, if_pos rfl, hitem]
    rfl
  · refine Or.inl ⟨hother, ?_⟩
    rw [Document.moveChildAfter, item_modify, if_neg hother, Option.map_id]
    rfl

/-- What a call does to a linked document. -/
theorem Linked.perform {d : Document} (hd : d.Linked) {call : Call} (h : d.Admits call) :
  ∃ after, d.perform call = some after ∧ after.Linked ∧
    (∀ place item, d.item place = some item →
      ∃ new, after.item place = some new ∧ (item.Furnished → new.Furnished)) ∧
    (∀ parentRef childRef afterRef, call = .moveChildAfter parentRef childRef afterRef →
      d.PermutesOne after) ∧
    (∀ ref, call = .moveToFurniture ref →
      (d.FurnishedBelow after ref ↔ d.TablesFurnished ref))
  := by
  cases call with
  | addGroup parentRef layer =>
    refine ⟨_, rfl, ?_, fun place item => addItem_keeps _ _ h, by simp, by simp⟩
    obtain ⟨parent, hlists, hsome, rfl⟩ := h
    exact hd.addItem (by simp) layer hlists hsome
  | addText parentRef layer prov =>
    obtain ⟨hlinked, hkept⟩ := hd.addWith .texts (by simp) layer h prov
    exact ⟨_, rfl, hlinked, hkept, by simp, by simp⟩
  | addPicture parentRef layer prov =>
    obtain ⟨hlinked, hkept⟩ := hd.addWith .pictures (by simp) layer h prov
    exact ⟨_, rfl, hlinked, hkept, by simp, by simp⟩
  | addTable parentRef layer prov =>
    obtain ⟨hlinked, hkept⟩ := hd.addWith .tables (by simp) layer h prov
    exact ⟨_, rfl, hlinked, hkept, by simp, by simp⟩
  | moveChildAfter parentRef childRef afterRef =>
    refine ⟨_, rfl, hd.moveChildAfter _ _ _, ?_, ?_, by simp⟩
    · intro place item hitem
      refine ⟨_, by rw [Document.moveChildAfter, item_modify, hitem, Option.map_some], ?_⟩
      intro hfurnished
      split <;> exact hfurnished
    · intro _ _ _ _
      apply moveChildAfter_permutes
  | moveToFurniture ref =>
    obtain ⟨arena, index, item, parent, hitem, rfl, hgroup, hsome, hparent⟩ := h
    obtain ⟨after, hafter, hlinked, hkept, hiff⟩ :=
      hd.moveToFurniture hitem hgroup hsome hparent
    refine ⟨after, hafter, hlinked, hkept, by simp, ?_⟩
    intro ref href
    obtain rfl := (Call.moveToFurniture.inj href).symm
    constructor
    · intro hall arena' index' index'' table heq hbelow htable
      obtain ⟨rfl, rfl⟩ := slot.inj (ref_injective heq)
      apply hiff.mp (fun place item => hall _ _ place item rfl) index'' table hbelow htable
    · intro htables arena' index' place item heq hbelow hitem'
      obtain ⟨rfl, rfl⟩ := slot.inj (ref_injective heq)
      apply hiff.mpr (fun index'' table => htables _ _ index'' table rfl) place item hbelow hitem'

end Document

/-- The documents that are reached by calls. -/
inductive Run : List Call → Document → Prop
  | start : Run [] {}
  | call {calls : List Call} {d after : Document} {call : Call} :
    Run calls d → d.Admits call → d.perform call = some after → Run (calls ++ [call]) after

theorem Run.linked {calls : List Call} (run : Run calls d) :
  d.Linked
  := by
  induction run with
  | start => exact Document.Linked.empty
  | call _ hadmits hafter ih =>
    obtain ⟨after, heq, hlinked, -⟩ := ih.perform hadmits
    obtain rfl := Option.some.inj (hafter.symm.trans heq)
    exact hlinked

/-- In every document that calls reach, each item stands in its slot and is listed once, by
the node it names as its parent.  A further call returns; one that moves a child permutes one
list of children; and one that moves an item to the furniture takes everything below it there
just when the tables below it are there already.  What is in the furniture without a box
stays so. -/
theorem arena_keepsLinks {calls : List Call} {d : Document} (run : Run calls d) :
  d.Linked ∧ ∀ call, d.Admits call → ∃ after, d.perform call = some after ∧
    (∀ place item, d.item place = some item →
      ∃ new, after.item place = some new ∧ (item.Furnished → new.Furnished)) ∧
    (∀ parentRef childRef afterRef, call = .moveChildAfter parentRef childRef afterRef →
      d.PermutesOne after) ∧
    (∀ ref, call = .moveToFurniture ref →
      (d.FurnishedBelow after ref ↔ d.TablesFurnished ref))
  := by
  refine ⟨run.linked, ?_⟩
  intro call hadmits
  obtain ⟨after, hafter, -, hrest⟩ := run.linked.perform hadmits
  exact ⟨after, hafter, hrest⟩

/-- A group with a table in it, moved to the furniture. -/
theorem arena_keepsLinks_group :
  ∃ d, Run [.addGroup "#/body" .body] d ∧ d.Linked ∧
    ∃ after, d.perform (.moveToFurniture "#/groups/0") = some after ∧
      (d.FurnishedBelow after "#/groups/0" ↔ d.TablesFurnished "#/groups/0")
  := by
  have hbody : Document.NamesOwner {} "#/body" := ⟨.body, trivial, rfl, rfl⟩
  have run : Run [.addGroup "#/body" .body] (Document.addGroup {} "#/body" .body) :=
    Run.start.call hbody rfl
  have hgroup := Document.item_addItem {} .groups .body (show Place.body.IsOwner from trivial) rfl
    (.slot .groups 0)
  obtain ⟨hlinked, hcalls⟩ := arena_keepsLinks run
  obtain ⟨after, hafter, -, -, hmoved⟩ := hcalls (.moveToFurniture "#/groups/0")
    ⟨.groups, 0, _, .body, hgroup, by decide, trivial, rfl, rfl⟩
  exact ⟨_, run, hlinked, after, hafter, hmoved _ rfl⟩

/-- A table in a group stays in the body when its group is moved to the furniture. -/
theorem moveToFurniture_leavesTable :
  ∃ d after, Run [.addGroup "#/body" .body, .addTable "#/groups/0" .body []] d ∧
    d.Admits (.moveToFurniture "#/groups/0") ∧
    d.perform (.moveToFurniture "#/groups/0") = some after ∧
    d.Below (.slot .groups 0) (.slot .tables 0) ∧ ¬d.FurnishedBelow after "#/groups/0"
  := by
  have href : "#/groups/0" = (Place.slot .groups 0).ref := by decide
  have hbody : Document.NamesOwner {} "#/body" := ⟨.body, trivial, rfl, rfl⟩
  have hgroup : (Document.addGroup {} "#/body" .body).item (.slot .groups 0) =
      some { selfRef := "#/groups/0", parent := "#/body", contentLayer := .body } := by
    have := Document.item_addItem {} .groups .body (show Place.body.IsOwner from trivial) rfl
      (.slot .groups 0)
    rw [href]
    exact this
  have htables : ((Document.addGroup {} "#/body" .body).items .tables).length = 0 := by
    rw [Document.addGroup, Document.addItem, Document.linkChild, Document.length_modify]
    rfl
  have hfirst : Run [.addGroup "#/body" .body] (Document.addGroup {} "#/body" .body) :=
    Run.start.call hbody rfl
  have howner : Document.NamesOwner (Document.addGroup {} "#/body" .body) "#/groups/0" :=
    ⟨.slot .groups 0, trivial, by rw [hgroup]; rfl, href⟩
  have run := hfirst.call (show Document.Admits _ (.addTable "#/groups/0" .body []) from howner) rfl
  have hitems := fun place => Document.item_modify
    ((Document.addGroup {} "#/body" .body).addTable .body "#/groups/0") (.slot .tables 0)
    (fun item => { item with prov := [] }) place
  simp only [Document.addTable, href, Document.item_addItem _ .tables .body
    (show (Place.slot .groups 0).IsOwner from trivial) (by rw [hgroup]; rfl), htables] at hitems
  have htable := hitems (.slot .tables 0)
  have hlists := hitems (.slot .groups 0)
  rw [hgroup] at hlists
  simp only [if_true, reduceCtorEq, Place.slot.injEq, false_and, if_false, Option.map_some,
    Document.nextRef, htables, List.nil_append, id] at htable hlists
  have hbelow := Document.Below.child Document.Below.top hlists
    (List.mem_singleton_self _)
  rw [Document.writeProv, Document.addTable, htables, href] at run
  have hadmits : Document.Admits _ (.moveToFurniture (Place.slot .groups 0).ref) :=
    ⟨.groups, 0, _, .body, hlists, rfl, trivial, rfl, rfl⟩
  obtain ⟨after, hafter, -, -, -, hmoved⟩ := run.linked.perform hadmits
  rw [href]
  refine ⟨_, after, run, hadmits, hafter, hbelow, ?_⟩
  rw [hmoved _ rfl]
  intro hall
  have := hall .groups 0 0 _ rfl hbelow htable
  cases this.1

end GRParse.Office
