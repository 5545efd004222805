import GRParse.Lib.Worklist
import GRParse.Office.Arena
import Mathlib.Data.List.TakeWhile

/-!
# The links of the arena

The references the functions of the arena write are read back as the nodes they were written
for, so both ends of every link are found: `Linked` says that each item is listed once, by
the node it names as its parent, and each function that adds or moves an item keeps it.
-/

namespace GRParse.Office

open List Option Place

/-! ### References are read back -/

/-- A digit is neither a blank nor a sign. -/
theorem plain_of_isDigit {c : Char} (h : c.isDigit = true) :
  isSpace c = false ∧ c ≠ '-' ∧ c ≠ '+'
  := by
  have hlow : 48 ≤ c.toNat := by
    simp only [Char.isDigit, ge_iff_le, Bool.and_eq_true, decide_eq_true_eq] at h
    exact h.1
  have hne : ∀ c' : Char, c'.toNat < 48 → c ≠ c' := by
    rintro c' hc' rfl
    omega
  refine ⟨?_, hne '-' (by decide), hne '+' (by decide)⟩
  rw [isSpace, Bool.or_eq_false_iff, Bool.and_eq_false_iff]
  refine ⟨beq_false_of_ne (hne ' ' (by decide)), Or.inr (decide_eq_false ?_)⟩
  intro hle
  have : c.toNat ≤ '\r'.toNat := hle
  have hreturn : '\r'.toNat = 13 := by decide
  omega

/-- What a number is written as is read back. -/
theorem atoi_toDigits (index : ℕ) :
  atoi (Nat.toDigits 10 index) = index
  := by
  have hdigit : ∀ c ∈ Nat.toDigits 10 index, c.isDigit = true :=
    fun c hc => Nat.isDigit_of_mem_toDigits (by decide) (by decide) hc
  have hnumber : leadingNumber (Nat.toDigits 10 index) = index := by
    rw [leadingNumber, takeWhile_eq_self_iff.mpr hdigit, Nat.ofDigitChars_ten_toDigits]
  cases hdigits : Nat.toDigits 10 index with
  | nil => exact absurd hdigits Nat.toDigits_ne_nil
  | cons digit digits =>
    rw [hdigits] at hdigit hnumber
    obtain ⟨hspace, hminus, hplus⟩ := plain_of_isDigit (hdigit digit mem_cons_self)
    rw [atoi, dropWhile_cons_of_neg (by simp [hspace])]
    split
    · next heq => exact absurd (cons.inj heq).1 hminus
    · next heq => exact absurd (cons.inj heq).1 hplus
    · exact hnumber

/-- A slot reference names its slot in its own arena, and none in the others. -/
theorem indexInArena_slot (arena arena' : Arena) (index : ℕ) :
  indexInArena (Place.slot arena' index).ref arena = if arena = arena' then (index : ℤ) else -1
  := by
  cases arena <;> cases arena' <;>
    simp [indexInArena, ref, slotRef_toList, Arena.start, kGroups, kTexts, kPictures, kTables, atoi_toDigits]

theorem indexInArena_body (arena : Arena) :
  indexInArena "#/body" arena = -1
  := by
  cases arena <;> simp [indexInArena, Arena.start, kGroups, kTexts, kPictures, kTables]

theorem indexInArena_furniture (arena : Arena) :
  indexInArena "#/furniture" arena = -1
  := by
  cases arena <;> simp [indexInArena, Arena.start, kGroups, kTexts, kPictures, kTables]

/-- Different nodes have different references. -/
theorem Place.ref_injective :
  Function.Injective Place.ref
  := by
  have hindex : ∀ (place : Place) arena index, place.ref = (slot arena index).ref →
      indexInArena place.ref arena = index := by
    intro place arena index h
    rw [h, indexInArena_slot, if_pos rfl]
  intro place place' h
  cases place with
  | body =>
    cases place' with
    | body => rfl
    | furniture => exact absurd h (by decide)
    | slot arena index =>
      have := hindex _ _ _ h
      rw [ref, indexInArena_body] at this
      omega
  | furniture =>
    cases place' with
    | body => exact absurd h (by decide)
    | furniture => rfl
    | slot arena index =>
      have := hindex _ _ _ h
      rw [ref, indexInArena_furniture] at this
      omega
  | slot arena index =>
    have hfound := hindex place' arena index h.symm
    cases place' with
    | body =>
      rw [ref, indexInArena_body] at hfound
      omega
    | furniture =>
      rw [ref, indexInArena_furniture] at hfound
      omega
    | slot arena' index' =>
      rw [indexInArena_slot] at hfound
      split at hfound
      · next heq =>
        rw [heq, Int.ofNat_inj.mp hfound]
      · omega

@[simp]
theorem Place.ref_inj {place place' : Place} :
  place.ref = place'.ref ↔ place = place'
  := ref_injective.eq_iff

variable (d : Document)

namespace Document

/-! ### The items after a change -/

@[simp]
theorem item_modify (place : Place) (f : Item → Item) (at' : Place) :
  (d.modify place f).item at' = (d.item at').map (if at' = place then f else id)
  := by
  cases place with
  | body => cases at' <;> simp [modify, item]
  | furniture => cases at' <;> simp [modify, item]
  | slot arena index =>
    cases at' with
    | body => simp [modify, item]
    | furniture => simp [modify, item]
    | slot arena' index' =>
      by_cases harena : arena' = arena
      · subst harena
        by_cases hindex : index' = index
        · subst hindex
          simp [modify, item]
        · simp [modify, item, hindex, Ne.symm hindex]
      · simp [modify, item, harena]

theorem item_add (arena : Arena) (new : Item) (at' : Place) :
  (d.add arena new).item at' =
    if at' = .slot arena (d.items arena).length then some new else d.item at'
  := by
  cases at' with
  | body => simp [add, item]
  | furniture => simp [add, item]
  | slot arena' index' =>
    by_cases harena : arena' = arena
    · subst harena
      simp only [add, item, Function.update_self, slot.injEq, true_and]
      rw [getElem?_append]
      split
      · next hlt => rw [if_neg (by omega)]
      · next hge =>
        split
        · next heq => simp [heq]
        · next hne =>
          rw [getElem?_eq_none (by simp; omega), getElem?_eq_none (by omega)]
    · simp [add, item, harena]

theorem item_slot_isSome (arena : Arena) (index : ℕ) :
  (d.item (.slot arena index)).isSome ↔ index < (d.items arena).length
  := by
  simp [item]

/-- The slot a reference names, when it is the reference to a node. -/
theorem slotByRef_ref (arena : Arena) (place : Place) {index : ℕ} :
  d.slotByRef arena place.ref = some index ↔
    place = .slot arena index ∧ (d.item place).isSome
  := by
  cases place with
  | body => simp [slotByRef, ref, indexInArena_body]
  | furniture => simp [slotByRef, ref, indexInArena_furniture]
  | slot arena' index' =>
    rw [slotByRef, indexInArena_slot]
    by_cases harena : arena = arena'
    · subst harena
      rw [if_pos rfl, item_slot_isSome, slot.injEq]
      by_cases hindex : index' < (d.items arena).length
      · simp [hindex]
      · simp [hindex]
    · simp [harena, Ne.symm harena]

theorem slotByRef_slot {arena : Arena} {index : ℕ} (h : (d.item (.slot arena index)).isSome) :
  d.slotByRef arena (Place.slot arena index).ref = some index
  := (d.slotByRef_ref arena _).mpr ⟨rfl, h⟩

theorem slotByRef_of_ne {arena : Arena} {place : Place} (h : ∀ index, place ≠ .slot arena index) :
  d.slotByRef arena place.ref = none
  := by
  cases hslot : d.slotByRef arena place.ref with
  | none => rfl
  | some index => exact absurd ((d.slotByRef_ref arena place).mp hslot).1 (h index)

end Document

/-! ### Parents -/

/-- A root or a group. -/
def Place.IsGroup : Place → Prop
  | .body | .furniture | .slot .groups _ => True
  | .slot _ _ => False

/-- A node items are added to: a root, a group, a picture or a table. -/
def Place.IsOwner : Place → Prop
  | .slot .pictures _ | .slot .tables _ => True
  | place => place.IsGroup

namespace Document

/-- The reference to a root or a group names it. -/
theorem groupByRef_ref (place : Place) (hgroup : place.IsGroup) (h : (d.item place).isSome) :
  d.groupByRef place.ref = place
  := by
  have hbody : place.ref = "#/body" ↔ place = .body := @ref_inj place .body
  have hfurniture : place.ref = "#/furniture" ↔ place = .furniture :=
    @ref_inj place .furniture
  cases place with
  | body => rfl
  | furniture => rfl
  | slot arena index =>
    cases arena with
    | groups => simp [groupByRef, hbody, hfurniture, d.slotByRef_slot h]
    | _ => cases hgroup

/-- What is looked up as a group is a node of the document. -/
theorem groupByRef_isSome (ref : String) :
  (d.item (d.groupByRef ref)).isSome
  := by
  unfold groupByRef
  split
  · rfl
  · split
    · rfl
    · split
      · next index hslot =>
        simp only [slotByRef, ite_none_right_eq_some, some.injEq] at hslot
        rw [item_slot_isSome]
        omega
      · rfl

/-- The reference to a node items are added to names it when a child is linked. -/
theorem linkPlace_ref (place : Place) (howner : place.IsOwner) (h : (d.item place).isSome) :
  d.linkPlace place.ref = place
  := by
  have hnot : ∀ arena, (∀ index, place ≠ .slot arena index) →
      d.slotByRef arena place.ref = none := fun arena => d.slotByRef_of_ne
  cases place with
  | body => simp [linkPlace, hnot, groupByRef_ref d .body trivial h]
  | furniture => simp [linkPlace, hnot, groupByRef_ref d .furniture trivial h]
  | slot arena index =>
    cases arena with
    | groups =>
      simp [linkPlace, hnot, groupByRef_ref d (.slot .groups index) trivial h]
    | pictures => simp [linkPlace, hnot, d.slotByRef_slot h]
    | tables => simp [linkPlace, hnot, d.slotByRef_slot h]
    | _ => cases howner

end Document

/-! ### Linked documents -/

/-- Every item stands in its slot and is listed once, by the node it names as its parent. -/
structure Document.Linked (d : Document) : Prop where
  /-- An item is named by its slot. -/
  positional : ∀ arena index item, d.item (.slot arena index) = some item →
    item.selfRef = (Place.slot arena index).ref
  /-- The parent of an item is a node of the document. -/
  named : ∀ arena index item, d.item (.slot arena index) = some item →
    ∃ parent, parent.IsOwner ∧ (d.item parent).isSome ∧ item.parent = parent.ref
  /-- An item is listed once by its parent, and by no other node. -/
  listed : ∀ arena index item, d.item (.slot arena index) = some item →
    ∀ place owner, d.item place = some owner →
      owner.children.count (Place.slot arena index).ref =
        if item.parent = place.ref then 1 else 0
  /-- Only items are listed. -/
  children : ∀ place owner, d.item place = some owner → ∀ ref ∈ owner.children,
    ∃ arena index, (d.item (.slot arena index)).isSome ∧ ref = (Place.slot arena index).ref
  /-- The arenas of form fields are empty. -/
  noFields : ∀ index, d.item (.slot .fieldRegions index) = none ∧
    d.item (.slot .fieldItems index) = none
  /-- A group has no provenance. -/
  groupProv : ∀ index group, d.item (.slot .groups index) = some group → group.prov = []

namespace Document

/-- An empty document is linked. -/
theorem Linked.empty :
  Linked {}
  := by
  have hnone : ∀ arena index, (Document.item {} (.slot arena index)) = none :=
    fun arena index => rfl
  constructor
  case children =>
    intro place owner howner ref href
    cases place with
    | body =>
      obtain rfl := some.inj howner
      cases href
    | furniture =>
      obtain rfl := some.inj howner
      cases href
    | slot arena index => simp [hnone] at howner
  all_goals simp [hnone]

/-- A change of every item that keeps its references, and its children up to their order,
keeps the links. -/
theorem Linked.map {d d' : Document} (hd : d.Linked) {f : Place → Item → Item}
    (hitem : ∀ place, d'.item place = (d.item place).map (f place))
    (hself : ∀ place item, (f place item).selfRef = item.selfRef)
    (hparent : ∀ place item, (f place item).parent = item.parent)
    (hchildren : ∀ place item, (f place item).children.Perm item.children)
    (hprov : ∀ index item, item.prov = [] → (f (.slot .groups index) item).prov = []) :
  d'.Linked
  := by
  have hsome : ∀ place, (d'.item place).isSome = (d.item place).isSome := by
    intro place
    rw [hitem, isSome_map]
  constructor
  case positional =>
    intro arena index item h
    rw [hitem, map_eq_some_iff] at h
    obtain ⟨old, hold, rfl⟩ := h
    rw [hself]
    apply hd.positional _ _ _ hold
  case named =>
    intro arena index item h
    rw [hitem, map_eq_some_iff] at h
    obtain ⟨old, hold, rfl⟩ := h
    simp only [hsome, hparent]
    apply hd.named _ _ _ hold
  case listed =>
    intro arena index item h place owner howner
    rw [hitem, map_eq_some_iff] at h howner
    obtain ⟨old, hold, rfl⟩ := h
    obtain ⟨oldOwner, holdOwner, rfl⟩ := howner
    rw [(hchildren _ _).count_eq, hparent]
    apply hd.listed _ _ _ hold _ _ holdOwner
  case children =>
    intro place owner howner ref href
    rw [hitem, map_eq_some_iff] at howner
    obtain ⟨oldOwner, holdOwner, rfl⟩ := howner
    simp only [hsome]
    apply hd.children _ _ holdOwner
    exact (hchildren _ _).mem_iff.mp href
  case noFields =>
    intro index
    rw [hitem, hitem, map_eq_none_iff, map_eq_none_iff]
    apply hd.noFields
  case groupProv =>
    intro index group h
    rw [hitem, map_eq_some_iff] at h
    obtain ⟨old, hold, rfl⟩ := h
    apply hprov
    apply hd.groupProv _ _ hold

/-- The place behind the last item of an arena is listed nowhere. -/
theorem Linked.next_notMem {d : Document} (hd : d.Linked) (arena : Arena) {place : Place}
    {owner : Item} (howner : d.item place = some owner) :
  d.nextRef arena ∉ owner.children
  := by
  intro hmem
  obtain ⟨arena', index, hsome, heq⟩ := hd.children _ _ howner _ hmem
  obtain ⟨rfl, rfl⟩ := slot.inj (ref_inj.mp heq)
  rw [item_slot_isSome] at hsome
  omega

/-! ### Adding an item -/

/-- The document after an item was added. -/
theorem item_addItem (arena : Arena) (layer : ContentLayer) {parent : Place}
    (howner : parent.IsOwner) (hsome : (d.item parent).isSome) (place : Place) :
  (d.addItem arena layer parent.ref).item place =
    if place = .slot arena (d.items arena).length then
      some { selfRef := d.nextRef arena, parent := parent.ref, contentLayer := layer }
    else (d.item place).map
      (if place = parent then
        fun owner => { owner with children := owner.children ++ [d.nextRef arena] }
      else id)
  := by
  have hnew : parent ≠ .slot arena (d.items arena).length := by
    rintro rfl
    rw [item_slot_isSome] at hsome
    omega
  have hfound : ∀ new, (d.add arena new).linkPlace parent.ref = parent := by
    intro new
    apply linkPlace_ref _ _ howner
    rw [item_add, if_neg hnew]
    apply hsome
  rw [addItem, linkChild, hfound, item_modify, item_add]
  by_cases hplace : place = .slot arena (d.items arena).length
  · subst hplace
    rw [if_pos rfl, if_pos rfl, if_neg (Ne.symm hnew)]
    rfl
  · rw [if_neg hplace, if_neg hplace]

/-- An item added under a node of the document is linked. -/
theorem Linked.addItem {d : Document} (hd : d.Linked) {arena : Arena}
    (harena : arena ≠ .fieldRegions ∧ arena ≠ .fieldItems) (layer : ContentLayer)
    {parent : Place} (howner : parent.IsOwner) (hsome : (d.item parent).isSome) :
  (d.addItem arena layer parent.ref).Linked
  := by
  have hitem := d.item_addItem arena layer howner hsome
  have hkept : ∀ place, (d.item place).isSome →
      ((d.addItem arena layer parent.ref).item place).isSome := by
    intro place h
    rw [hitem]
    split
    · rfl
    · rwa [isSome_map]
  have hnone : d.item (.slot arena (d.items arena).length) = none := by
    rw [← not_isSome_iff_eq_none, item_slot_isSome]
    omega
  have hcases : ∀ {place item}, (d.addItem arena layer parent.ref).item place = some item →
      (place = .slot arena (d.items arena).length ∧
        item = { selfRef := d.nextRef arena, parent := parent.ref, contentLayer := layer }) ∨
      (∃ old, d.item place = some old ∧ place ≠ .slot arena (d.items arena).length ∧
        item = { old with children :=
          if place = parent then old.children ++ [d.nextRef arena] else old.children }) := by
    intro place item h
    rw [hitem] at h
    split at h
    · next heq => exact Or.inl ⟨heq, (some.inj h).symm⟩
    · next hne =>
      obtain ⟨old, hold, rfl⟩ := map_eq_some_iff.mp h
      refine Or.inr ⟨old, hold, hne, ?_⟩
      split <;> rfl
  constructor
  case positional =>
    intro arena' index item h
    rcases hcases h with ⟨heq, rfl⟩ | ⟨old, hold, -, rfl⟩
    · rw [heq]
      rfl
    · apply hd.positional _ _ _ hold
  case named =>
    intro arena' index item h
    rcases hcases h with ⟨-, rfl⟩ | ⟨old, hold, -, rfl⟩
    · exact ⟨parent, howner, hkept _ hsome, rfl⟩
    · obtain ⟨parent', howner', hsome', heq⟩ := hd.named _ _ _ hold
      exact ⟨parent', howner', hkept _ hsome', heq⟩
  case listed =>
    intro arena' index item h place owner hplace
    rcases hcases h with ⟨heq, rfl⟩ | ⟨old, hold, hne, rfl⟩
    · rw [heq]
      rcases hcases hplace with ⟨hnew, rfl⟩ | ⟨oldOwner, holdOwner, hne', rfl⟩
      · have : parent ≠ place := by
          rintro rfl
          rw [hnew, hnone] at hsome
          cases hsome
        simp [this]
      · have hcount : oldOwner.children.count (d.nextRef arena) = 0 :=
          count_eq_zero.mpr (hd.next_notMem arena holdOwner)
        change count (d.nextRef arena) _ = _
        simp only [ref_inj, eq_comm (a := parent)]
        split
        · rw [count_append, hcount, count_singleton_self]
        · exact hcount
    · have hother : (slot arena' index).ref ≠ d.nextRef arena :=
        fun heq => hne (ref_injective heq)
      rcases hcases hplace with ⟨hnew, rfl⟩ | ⟨oldOwner, holdOwner, -, rfl⟩
      · obtain ⟨parent', -, hsome', heq⟩ := hd.named _ _ _ hold
        have : parent' ≠ place := by
          rintro rfl
          rw [hnew, hnone] at hsome'
          cases hsome'
        simp [heq, this]
      · rw [← hd.listed _ _ _ hold _ _ holdOwner]
        change count _ (if _ then _ else _) = _
        split
        · rw [count_append, count_singleton, beq_false_of_ne hother.symm]
          rfl
        · rfl
  case children =>
    intro place owner hplace ref href
    rcases hcases hplace with ⟨-, rfl⟩ | ⟨oldOwner, holdOwner, -, rfl⟩
    · cases href
    · have hmem : ref ∈ oldOwner.children ∨ ref = d.nextRef arena := by
        change ref ∈ (if _ then _ else _) at href
        split at href
        · simpa using href
        · exact Or.inl href
      rcases hmem with hmem | rfl
      · obtain ⟨arena', index, hsome', heq⟩ := hd.children _ _ holdOwner _ hmem
        exact ⟨arena', index, hkept _ hsome', heq⟩
      · refine ⟨arena, (d.items arena).length, ?_, rfl⟩
        rw [hitem, if_pos rfl]
        rfl
  case noFields =>
    intro index
    constructor
    · rw [hitem, if_neg (fun heq => harena.1 (slot.inj heq).1.symm),
        (hd.noFields index).1]
      rfl
    · rw [hitem, if_neg (fun heq => harena.2 (slot.inj heq).1.symm),
        (hd.noFields index).2]
      rfl
  case groupProv =>
    intro index group h
    rcases hcases h with ⟨-, rfl⟩ | ⟨old, hold, -, rfl⟩
    · rfl
    · apply hd.groupProv _ _ hold

end Document

end GRParse.Office
