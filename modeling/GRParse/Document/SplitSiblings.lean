import GRParse.Document.SplitStrips

/-!
# The items of a split

The pieces of a text stand in the arena in the place of the item and behind all others, and their
references right behind the reference of the item, in the one children list that held it.  All else
in the document is as before.
-/

namespace GRParse.Splitting

open Containers Protobuf Layout Utf8 Stretches List Option Splitting.Document
open Hyphenation.Bytes (isAsciiSpace)

/-! ### Inserting references -/

section

variable {α : Type}

theorem swapElements_append (front back : List α) (a b : α) :
  swapElements (front ++ a :: b :: back) (front.length + 1) front.length = front ++ b :: a :: back
  := by
  have hfirst : (front ++ a :: b :: back)[front.length + 1]? = some b := by simp
  have hsecond : (front ++ a :: b :: back)[front.length]? = some a := by simp
  rw [swapElements, hfirst, hsecond]
  simp

/-- An entry is rotated down over those behind the target. -/
theorem rotateTo_append (target slot : ℕ) {front : List α} (back : List α) (a : α)
    (hslot : front.length = slot) (htarget : target ≤ slot) :
  rotateTo target slot (front ++ a :: back) =
    front.take target ++ a :: (front.drop target ++ back)
  := by
  induction slot generalizing front back with
  | zero =>
    obtain rfl := length_eq_zero_iff.mp hslot
    simp [rotateTo]
  | succ slot ih =>
    rw [rotateTo]
    split
    case isTrue hlt =>
      obtain ⟨before, b, rfl⟩ :=
        (eq_nil_or_concat front).resolve_left (by rintro rfl; cases hslot)
      rw [concat_eq_append] at hslot ⊢
      have hbefore : before.length = slot := by simpa using hslot
      have hle : target ≤ before.length := by omega
      rw [append_assoc, singleton_append, ← hbefore, swapElements_append, hbefore,
        ih _ hbefore (by omega), take_append_of_le_length hle,
        drop_append_of_le_length hle, append_assoc, singleton_append]
    case isFalse hge =>
      obtain rfl : target = front.length := by omega
      simp

end

/-- The new references stand behind a position, in their order. -/
theorem insertRefs_append {before behind : List RefItem} {position : ℕ}
    (hposition : before.length = position + 1) (newRefs : List String) :
  insertRefs (before ++ behind) position newRefs = before ++ newRefs.map RefItem.mk ++ behind
  := by
  have hloop : ∀ (left : List String) (index : ℕ) (front : List RefItem),
      front.length = position + 1 + index →
      (left.zipIdx index).foldl (fun children entry =>
        rotateTo (position + 1 + entry.2) children.length (children ++ [⟨entry.1⟩]))
        (front ++ behind) =
      front ++ left.map RefItem.mk ++ behind := by
    intro left
    induction left with
    | nil => simp
    | cons ref left ih =>
      intro index front hfront
      have hle : position + 1 + index ≤ (front ++ behind).length := by
        rw [length_append]
        omega
      rw [zipIdx_cons, foldl_cons]
      dsimp only
      rw [rotateTo_append _ _ [] _ rfl hle, ← hfront, take_left, drop_left,
        append_nil]
      have h := ih (index + 1) (front ++ [⟨ref⟩]) (by simp [hfront]; omega)
      rw [append_assoc front, singleton_append] at h
      rw [h]
      simp
  exact hloop newRefs 0 before hposition

/-! ### Children lists -/

section

variable {f : List RefItem → List RefItem} {index other : ℕ}

theorem childrenAt_modify_self {items : List NodeItem} (h : childrenAt items index ≠ []) :
  childrenAt (items.modify index (·.modifyChildren f)) index = f (childrenAt items index)
  := by
  rw [childrenAt] at h
  rw [childrenAt, childrenAt, getElem?_modify_eq]
  cases hitem : items[index]? with
  | none =>
    rw [hitem] at h
    exact absurd rfl h
  | some item => rfl

theorem childrenAt_modify_of_ne {items : List NodeItem} (h : other ≠ index) :
  childrenAt (items.modify index (·.modifyChildren f)) other = childrenAt items other
  := by
  rw [childrenAt, childrenAt, getElem?_modify_ne _ _ h.symm]

/-- The children list of a slot of the text arena. -/
theorem textChildren_modify_self {texts : List BaseTextItem}
    (h : (texts[index]?.map BaseTextItem.children).getD [] ≠ []) :
  ((texts.modify index (·.modifyChildren f))[index]?.map BaseTextItem.children).getD [] =
    f ((texts[index]?.map BaseTextItem.children).getD [])
  := by
  rw [getElem?_modify_eq]
  cases hitem : texts[index]? with
  | none =>
    rw [hitem] at h
    exact absurd rfl h
  | some item =>
    rw [hitem] at h
    cases item with
    | notSet => exact absurd rfl h
    | based kind base rest => rfl
    | code item => rfl

theorem textChildren_modify_of_ne {texts : List BaseTextItem} (h : other ≠ index) :
  ((texts.modify index (·.modifyChildren f))[other]?.map BaseTextItem.children).getD [] =
    (texts[other]?.map BaseTextItem.children).getD []
  := by
  rw [getElem?_modify_ne _ _ h.symm]

variable {document : Document}

/-- A list that is not empty is changed where it is. -/
theorem children_modifyChildren_self {holder : Holder} (h : document.children holder ≠ []) :
  (document.modifyChildren f holder).children holder = f (document.children holder)
  := by
  cases holder with
  | text index => exact textChildren_modify_self h
  | body => rfl
  | furniture => rfl
  | _ index => exact childrenAt_modify_self h

theorem childrenAt_modify_const (items : List NodeItem) (index : ℕ) :
  items.modify index (·.modifyChildren f) =
    items.modify index (·.modifyChildren fun _ => f (childrenAt items index))
  := by
  apply ext_getElem?
  intro other
  rw [getElem?_modify, getElem?_modify]
  by_cases h : index = other
  · subst h
    rw [childrenAt]
    cases items[index]? with
    | none => rfl
    | some item => rfl
  · simp [h]

theorem textChildren_modify_const (texts : List BaseTextItem) (index : ℕ) :
  texts.modify index (·.modifyChildren f) =
    texts.modify index (·.modifyChildren fun _ =>
      f ((texts[index]?.map BaseTextItem.children).getD []))
  := by
  apply ext_getElem?
  intro other
  rw [getElem?_modify, getElem?_modify]
  by_cases h : index = other
  · subst h
    cases texts[index]? with
    | none => rfl
    | some item => cases item <;> rfl
  · simp [h]

/-- A change of a list depends on nothing but the list. -/
theorem modifyChildren_const (holder : Holder) :
  document.modifyChildren f holder =
    document.modifyChildren (fun _ => f (document.children holder)) holder
  := by
  cases holder with
  | text index =>
    rw [modifyChildren, textChildren_modify_const]
    rfl
  | body => rfl
  | furniture => rfl
  | _ index =>
    rw [modifyChildren, childrenAt_modify_const]
    rfl

/-- The other lists stay. -/
theorem children_modifyChildren_of_ne {holder holder' : Holder} (h : holder' ≠ holder) :
  (document.modifyChildren f holder).children holder' = document.children holder'
  := by
  cases holder <;> cases holder' <;> first
    | rfl
    | exact absurd rfl h
    | exact childrenAt_modify_of_ne fun heq => h (heq ▸ rfl)
    | exact textChildren_modify_of_ne fun heq => h (heq ▸ rfl)

end

/-! ### The pieces in the arena -/

/-- The document with the pieces of an item in the place of it and behind all others. -/
def Document.withPieces (document : Document) (index : ℕ) (first : TextItemBase)
    (others : List TextItemBase) : Document :=
  { document with
    texts := document.texts.modify index (·.modifyBase fun _ => first) ++
      others.map fun piece => .based .text piece .done }

/-- The piece that becomes a new item in a slot. -/
def newPiece (heights : PageHeights) (pristine : TextItemBase) (stretch : ℕ × ℕ) (slot : ℕ) :
    TextItemBase :=
  fillPiece heights pristine stretch
    { selfRef := slotRef kTexts slot
      parent := pristine.parent
      contentLayer := pristine.contentLayer
      label := pristine.label
      source := pristine.source }

/-- The pieces of the stretches behind the first one. -/
def newPieces (heights : PageHeights) (pristine : TextItemBase) (slot : ℕ)
    (stretches : List (ℕ × ℕ)) : List TextItemBase :=
  (stretches.zipIdx slot).map fun (stretch, slot) => newPiece heights pristine stretch slot

section

variable {heights : PageHeights} {pristine : TextItemBase} {index : ℕ}

theorem splitPiece_succ (stretch : ℕ × ℕ) (number : ℕ) (progress : Progress) :
  splitPiece heights pristine index progress (stretch, number + 1) =
    let piece := newPiece heights pristine stretch progress.document.texts.length
    { document := { progress.document with
        texts := progress.document.texts ++ [.based .text piece .done] }
      newRefs := progress.newRefs ++ [piece.selfRef] }
  := rfl

/-- The loop appends an item for each further stretch. -/
theorem foldl_splitPiece (stretches : List (ℕ × ℕ)) (number : ℕ) (progress : Progress) :
  (stretches.zipIdx (number + 1)).foldl (splitPiece heights pristine index) progress =
    { document := { progress.document with
        texts := progress.document.texts ++
          (newPieces heights pristine progress.document.texts.length stretches).map
            fun piece => .based .text piece .done }
      newRefs := progress.newRefs ++
        (newPieces heights pristine progress.document.texts.length stretches).map
          TextItemBase.selfRef }
  := by
  induction stretches generalizing number progress with
  | nil => simp [newPieces]
  | cons stretch stretches ih =>
    rw [zipIdx_cons, foldl_cons, splitPiece_succ, ih]
    simp only [newPieces, length_append, length_singleton, zipIdx_cons,
      map_cons, append_assoc, singleton_append]

/-- What the loop leaves: the item is the first piece, and the others are new items. -/
theorem foldl_splitPiece_first {document : Document} {stretch : ℕ × ℕ} {stretches : List (ℕ × ℕ)}
    (hitem : document.texts[index]?.bind BaseTextItem.textBaseOf = some pristine) :
  ((stretch :: stretches).zipIdx).foldl (splitPiece heights pristine index) ⟨document, []⟩ =
    let others := newPieces heights pristine document.texts.length stretches
    { document := document.withPieces index
        (fillPiece heights pristine stretch { pristine with prov := [], spans := [] }) others
      newRefs := others.map TextItemBase.selfRef }
  := by
  have hmodify : document.texts.modify index (·.modifyBase fun base =>
        fillPiece heights pristine stretch { base with prov := [], spans := [] }) =
      document.texts.modify index (·.modifyBase fun _ =>
        fillPiece heights pristine stretch { pristine with prov := [], spans := [] }) := by
    apply ext_getElem?
    intro other
    by_cases h : index = other
    · subst h
      rw [getElem?_modify_eq, getElem?_modify_eq]
      obtain ⟨item, hget, hbase⟩ := bind_eq_some_iff.mp hitem
      rw [hget]
      cases item with
      | notSet => rfl
      | code item => rfl
      | based kind base rest =>
        obtain rfl := some.inj hbase
        rfl
    · rw [getElem?_modify_ne _ _ h, getElem?_modify_ne _ _ h]
  rw [zipIdx_cons, foldl_cons, Nat.zero_add, foldl_splitPiece stretches 0]
  simp only [splitPiece, length_modify, nil_append, hmodify, withPieces]

end

/-! ### Finding the list -/

section

variable {document : Document} {index : ℕ} {base first : TextItemBase} {others : List TextItemBase}

/-- The pieces have the children that the item had. -/
theorem children_withPieces (hitem : document.texts[index]?.bind BaseTextItem.textBaseOf = some base)
    (hfirst : first.children = base.children) (hothers : ∀ piece ∈ others, piece.children = [])
    (holder : Holder) :
  (document.withPieces index first others).children holder = document.children holder
  := by
  cases holder with
  | text other =>
    simp only [Document.children, Document.withPieces, getElem?_append, length_modify]
    split
    case isTrue hlt =>
      by_cases h : index = other
      · subst h
        rw [getElem?_modify_eq]
        obtain ⟨item, hget, hbase⟩ := Option.bind_eq_some_iff.mp hitem
        rw [hget]
        cases item with
        | notSet => rfl
        | code item => rfl
        | based kind base rest =>
          obtain rfl := Option.some.inj hbase
          exact hfirst
      · rw [getElem?_modify_ne _ _ h]
    case isFalse hge =>
      rw [getElem?_eq_none (Nat.le_of_not_lt hge), getElem?_map, Option.map_map]
      cases hpiece : others[other - document.texts.length]? with
      | none => rfl
      | some piece => exact hothers piece (mem_of_getElem? hpiece)
  | _ => rfl

/-- A reference that names a text names no table and no picture. -/
theorem indexAfter_of_texts {ref : String} {slot : ℕ} (h : indexAfter ref kTexts = some slot) :
  indexAfter ref kTables = none ∧ indexAfter ref kPictures = none
  := by
  rw [indexAfter] at h
  split at h
  case isTrue htexts =>
    obtain ⟨rest, hrest⟩ := isPrefixOf_iff_prefix.mp htexts
    rw [indexAfter, indexAfter, ← hrest]
    exact ⟨rfl, rfl⟩
  case isFalse => cases h

/-- A slot is as it was, but that a base may be another one. -/
theorem notSet_withPieces {slot : ℕ} (h : slot < document.texts.length) :
  (document.withPieces index first others).texts[slot]? = some .notSet ↔
    document.texts[slot]? = some .notSet
  := by
  rw [withPieces, getElem?_append_left (by rwa [length_modify])]
  by_cases heq : index = slot
  · subst heq
    rw [getElem?_modify_eq, getElem?_eq_getElem h]
    cases document.texts[index] with
    | notSet => exact Iff.rfl
    | code item => exact Iff.rfl
    | based kind base rest => exact iff_of_false nofun nofun
  · rw [getElem?_modify_ne _ _ heq]

/-- The new items can be taken for the parent, but they have no children. -/
theorem itemChildren_withPieces (parent : String) :
  (document.withPieces index first others).itemChildren parent = document.itemChildren parent ∨
    document.itemChildren parent = none ∧ ∃ slot, document.texts.length ≤ slot ∧
      (document.withPieces index first others).itemChildren parent = some (.text slot)
  := by
  have hlength : (document.withPieces index first others).texts.length =
      document.texts.length + others.length := by
    simp [withPieces]
  cases hslot : indexAfter parent kTexts with
  | none =>
    left
    rw [itemChildren, itemChildren, hslot]
    rfl
  | some slot =>
    obtain ⟨htables, hpictures⟩ := indexAfter_of_texts hslot
    rw [itemChildren, itemChildren, hslot, htables, hpictures, hlength]
    rcases Nat.lt_or_ge slot document.texts.length with hlt | hge
    · left
      have hlt' : slot < document.texts.length + others.length := by omega
      simp only [filter_some, decide_eq_true_eq, if_pos hlt, if_pos hlt',
        notSet_withPieces hlt]
    · have hnot : ¬ slot < document.texts.length := by omega
      rcases Nat.lt_or_ge slot (document.texts.length + others.length) with hlt' | hge'
      · right
        have hset : (document.withPieces index first others).texts[slot]? ≠ some .notSet := by
          rw [withPieces, getElem?_append_right (by rwa [length_modify]),
            getElem?_map]
          cases others[slot - (document.texts.modify index _).length]? with
          | none => simp
          | some piece => simp
        simp only [filter_some, decide_eq_true_eq, if_neg hnot, if_pos hlt', if_neg hset,
          filter_none, map_none, true_and]
        exact ⟨slot, hge, rfl⟩
      · left
        have hnot' : ¬ slot < document.texts.length + others.length := by omega
        simp only [filter_some, decide_eq_true_eq, if_neg hnot, if_neg hnot',
          filter_none]

/-- The list is found as before the split. -/
theorem childrenHolding_withPieces
    (hitem : document.texts[index]?.bind BaseTextItem.textBaseOf = some base)
    (hfirst : first.children = base.children) (hothers : ∀ piece ∈ others, piece.children = [])
    (ref parent : String) :
  (document.withPieces index first others).childrenHolding ref parent =
    document.childrenHolding ref parent
  := by
  rw [Document.childrenHolding, Document.childrenHolding]
  simp only [children_withPieces hitem hfirst hothers]
  rw [Document.searched, Document.searched]
  have hchildren := @itemChildren_withPieces document index first others parent
  rcases hchildren with h | ⟨hnone, slot, hslot, hsome⟩
  · rw [h]
    rfl
  · have hempty : document.children (.text slot) = [] := by
      rw [Document.children, getElem?_eq_none hslot]
      rfl
    rw [hnone, hsome, toList_some, toList_none, singleton_append,
      findSome?_cons, hempty]
    rfl

/-- One children list, and no other, has a reference. -/
def Document.OnlyIn (document : Document) (ref : String) (holder : Holder) : Prop :=
  ∀ other, (∃ child ∈ document.children other, child.ref = ref) ↔ other = holder

theorem findIdx?_of_split {ref : String} {before behind : List RefItem}
    (hbefore : ∀ child ∈ before, child.ref ≠ ref) :
  (before ++ ⟨ref⟩ :: behind).findIdx? (fun child => child.ref = ref) = some before.length
  := by
  induction before with
  | nil =>
    rw [nil_append, findIdx?_cons, if_pos (by simp)]
    rfl
  | cons child before ih =>
    obtain ⟨hchild, hbefore⟩ := forall_mem_cons.mp hbefore
    rw [cons_append, findIdx?_cons, if_neg (by simpa using hchild), ih hbefore]
    rfl

/-- The one list that has a reference is found where it is searched. -/
theorem childrenHolding_of_onlyIn {ref parent : String} {holder : Holder}
    (honly : document.OnlyIn ref holder) (hsearched : holder ∈ document.searched parent) :
  ∃ before behind, document.children holder = before ++ ⟨ref⟩ :: behind ∧
    (∀ child ∈ before, child.ref ≠ ref) ∧
    document.childrenHolding ref parent = some (holder, before.length)
  := by
  obtain ⟨child, hchild, href⟩ := (honly holder).mpr rfl
  obtain rfl : child = ⟨ref⟩ := by
    cases child
    exact congrArg RefItem.mk href
  obtain ⟨before, behind, hsplit, hfresh⟩ := eq_append_cons_of_mem hchild
  have hbefore : ∀ child ∈ before, child.ref ≠ ref := by
    intro child hmem heq
    apply hfresh
    rwa [← heq]
  refine ⟨before, behind, hsplit, hbefore, ?_⟩
  obtain ⟨earlier, later, hlists, hnot⟩ := eq_append_cons_of_mem hsearched
  rw [childrenHolding, findSome?_eq_some_iff]
  refine ⟨earlier, holder, later, hlists, ?_, ?_⟩
  · rw [hsplit, findIdx?_of_split hbefore]
    rfl
  · intro other hother
    rw [map_eq_none_iff, findIdx?_eq_none_iff]
    intro child hmem
    have hne : child.ref ≠ ref := by
      intro heq
      rw [(honly other).mp ⟨child, hmem, heq⟩] at hother
      exact hnot hother
    simpa using hne

end

end GRParse.Splitting
