import GRParse.Document.RenameLog
import GRParse.Document.StreamDelta

/-!
# Retiring text items

Text items that were absorbed by others leave the arena: their children move to the item that
absorbed them, the groups and the parents drop them, the texts that stay move up, and every
reference in the document follows.
-/

namespace GRParse

open Containers Protobuf List RefMap BaseTextItem

/-- A document with the arenas spelled out that only the repairs go through. -/
structure FullDocument extends Document where
  keyValueItems : List NodeItem := []
  formItems : List NodeItem := []
  fieldRegions : List NodeItem := []
  fieldItems : List NodeItem := []

/-! ### Text items -/

namespace BaseTextItem

/-- `self_ref_of`: an item that carries no reference has that of its slot. -/
def selfRefAt (item : BaseTextItem) (index : ℕ) : String :=
  if selfRefOf item = "" then slotRef kTexts index else selfRefOf item

/-- A change of the fields that all text items have; to be changed, a base is set. -/
def modifyBase (f : TextItemBase → TextItemBase) : BaseTextItem → BaseTextItem
  | .notSet => .notSet
  | .based kind base rest => .based kind (some (f (base.getD {}))) rest
  | .code item => .code (f item)

/-- The fields that all text items have. -/
def fields : BaseTextItem → Option TextItemBase
  | .code item => some item
  | item => item.textBaseOf

/-- `text_children`. -/
def textChildren (item : BaseTextItem) : Option (List RefItem) :=
  item.fields.map (·.children)

def withChildren (children : List RefItem) : BaseTextItem → BaseTextItem :=
  modifyBase fun base => { base with children }

/-- The item without its children. -/
def childless : BaseTextItem → BaseTextItem :=
  withChildren []

end BaseTextItem

/-! ### Pruning -/

/-- `prune_children`. -/
def NodeItem.pruneChildren (retired : Finset String) (node : NodeItem) : NodeItem :=
  { node with children := node.children.filter fun child => child.ref ∉ retired }

/-- `prune_if_parent`: other items than groups drop a retired item only if it names them. -/
def NodeItem.pruneIfParent (parents retired : Finset String) (node : NodeItem) : NodeItem :=
  if node.selfRef ∈ parents then node.pruneChildren retired else node

def GroupItem.pruneChildren (retired : Finset String) (group : GroupItem) : GroupItem where
  toNodeItem := group.toNodeItem.pruneChildren retired

def DocItem.pruneIfParent (parents retired : Finset String) (item : DocItem) : DocItem :=
  { item with toNodeItem := item.toNodeItem.pruneIfParent parents retired }

def BaseTextItem.pruneIfParent (parents retired : Finset String) : BaseTextItem → BaseTextItem :=
  modifyBase fun base => { base with toDocItem := base.toDocItem.pruneIfParent parents retired }

/-- `prune_retired`. -/
def FullDocument.pruneRetired (document : FullDocument) (retired parents : Finset String) :
    FullDocument :=
  { document with
    body := some ((document.body.getD {}).pruneChildren retired)
    furniture := some ((document.furniture.getD {}).pruneChildren retired)
    groups := document.groups.map (·.pruneChildren retired)
    texts := document.texts.map (·.pruneIfParent parents retired)
    pictures := document.pictures.map fun picture =>
      { picture with toDocItem := picture.toDocItem.pruneIfParent parents retired }
    tables := document.tables.map fun table =>
      { table with toDocItem := table.toDocItem.pruneIfParent parents retired }
    keyValueItems := document.keyValueItems.map (·.pruneIfParent parents retired)
    formItems := document.formItems.map (·.pruneIfParent parents retired)
    fieldRegions := document.fieldRegions.map (·.pruneIfParent parents retired)
    fieldItems := document.fieldItems.map (·.pruneIfParent parents retired) }

/-! ### Adoption -/

/-- The slot of the first text with a reference. -/
def textPosition (texts : List BaseTextItem) (ref : String) : Option ℕ :=
  texts.zipIdx.findIdx? fun (item, index) => item.selfRefAt index = ref

/-- The survivor of a chain of absorptions, which is followed for a number of hops. -/
def survivorOf (absorbedBy : RefMap) : ℕ → String → String
  | 0, survivor => survivor
  | hops + 1, survivor =>
    match absorbedBy.lookup survivor with
    | some next => survivorOf absorbedBy hops next
    | none => survivor

/-- A child is adopted unless it is listed. -/
def adopt (adopting moving : List RefItem) : List RefItem :=
  moving.foldl (fun adopting child => if child ∈ adopting then adopting else adopting ++ [child])
    adopting

/-- The children of a retired item move to its survivor. -/
def adoptEntry (absorbedBy : RefMap) (original texts : List BaseTextItem)
    (entry : String × String) : List BaseTextItem :=
  match textPosition original entry.1,
    textPosition original (survivorOf absorbedBy original.length entry.2) with
  | some source, some target =>
    if source = target then texts
    else
      match texts[source]?.bind (·.textChildren), texts[target]?.bind (·.textChildren) with
      | some moving, some adopting =>
        (texts.modify target (·.withChildren (adopt adopting moving))).modify source
          (·.withChildren [])
      | _, _ => texts
  | _, _ => texts

/-- `adopt_children`. -/
def adoptChildren (absorbedBy : RefMap) (texts : List BaseTextItem) : List BaseTextItem :=
  absorbedBy.entries.foldl (adoptEntry absorbedBy texts) texts

/-! ### The repair -/

/-- The texts that stay, with the slots they had. -/
def keptTexts (absorbedBy : RefMap) (texts : List BaseTextItem) : List (BaseTextItem × ℕ) :=
  texts.zipIdx.filter fun (item, index) => item.selfRefAt index ∉ absorbedBy

/-- The texts that stay move up. -/
def renumberKept (kept : List (BaseTextItem × ℕ)) : RefMap :=
  .insertAll (kept.zipIdx.filterMap fun ((item, index), next) =>
    if item.selfRefAt index = slotRef kTexts next then none
    else some (item.selfRefAt index, slotRef kTexts next)) ∅

/-- A retired text is renamed to what its survivor is renamed to. -/
def renumberRetired (absorbedBy : RefMap) (renumbering : RefMap) : RefMap :=
  absorbedBy.entries.foldl (fun renumbering entry =>
    renumbering.insert entry.1 (renumbering.rename entry.2)) renumbering

/-- The renumbering of a repair. -/
def retireRenumbering (absorbedBy : RefMap) (texts : List BaseTextItem) : RefMap :=
  renumberRetired absorbedBy (renumberKept (keptTexts absorbedBy texts))

/-- The references that the retired texts name as their parents. -/
def retiredParents (absorbedBy : RefMap) (texts : List BaseTextItem) : Finset String :=
  (texts.zipIdx.filterMap fun (item, index) =>
    if item.selfRefAt index ∈ absorbedBy then
      (item.fields.bind (·.parent)).map (·.ref)
    else none).toFinset

/-- `rewrite_references` on all the arenas. -/
def FullDocument.rewriteReferences (mapping : RefMap) (document : FullDocument) :
    FullDocument where
  toDocument := document.toDocument.rewriteReferences mapping
  keyValueItems := document.keyValueItems.map (·.rewriteRefs mapping)
  formItems := document.formItems.map (·.rewriteRefs mapping)
  fieldRegions := document.fieldRegions.map (·.rewriteRefs mapping)
  fieldItems := document.fieldItems.map (·.rewriteRefs mapping)

/-- `retire_text_items`.  A renumbering that is empty renames nothing. -/
def retireTextItems (document : FullDocument) (absorbedBy : RefMap) : FullDocument :=
  let texts := adoptChildren absorbedBy document.texts
  let kept := keptTexts absorbedBy texts
  let pruned := ({ document with texts := kept.map (·.1) } : FullDocument).pruneRetired
    absorbedBy.keys (retiredParents absorbedBy document.texts)
  pruned.rewriteReferences (retireRenumbering absorbedBy texts)

/-! ### The renumbering -/

/-- Every text carries the reference to its slot. -/
def Named (texts : List BaseTextItem) : Prop :=
  ∀ index item, texts[index]? = some item → selfRefOf item = slotRef kTexts index

/-- Texts are absorbed by texts that stay. -/
structure Absorbs (absorbedBy : RefMap) (texts : List BaseTextItem) : Prop where
  keys : ∀ ref ∈ absorbedBy, ∃ index < texts.length, ref = slotRef kTexts index
  values : ∀ ref survivor, absorbedBy.lookup ref = some survivor →
    survivor ∉ absorbedBy ∧ ∃ index < texts.length, survivor = slotRef kTexts index

/-- The slots of the texts that stay. -/
def keptSlots (absorbedBy : RefMap) (count : ℕ) : List ℕ :=
  (List.range count).filter fun index => slotRef kTexts index ∉ absorbedBy

variable {absorbedBy : RefMap} {texts : List BaseTextItem}

theorem slotRef_kTexts_ne_empty (index : ℕ) :
  slotRef kTexts index ≠ ""
  := by
  intro h
  have hlist := congrArg String.toList h
  simp [kTexts] at hlist

variable {item : BaseTextItem}

theorem Named.selfRefAt_eq (h : Named texts) {index : ℕ} (hitem : texts[index]? = some item) :
  item.selfRefAt index = slotRef kTexts index
  := by
  rw [selfRefAt, h index item hitem, if_neg (slotRef_kTexts_ne_empty index)]

theorem getElem?_of_mem_keptTexts {kept : BaseTextItem × ℕ}
    (h : kept ∈ keptTexts absorbedBy texts) :
  texts[kept.2]? = some kept.1
  := mk_mem_zipIdx_iff_getElem?.mp (mem_of_mem_filter h)

theorem map_snd_keptTexts (h : Named texts) :
  (keptTexts absorbedBy texts).map (·.2) = keptSlots absorbedBy texts.length
  := by
  have hfilter : keptTexts absorbedBy texts =
      texts.zipIdx.filter fun kept => slotRef kTexts kept.2 ∉ absorbedBy := by
    apply filter_congr
    rintro ⟨item, index⟩ hmem
    dsimp only
    rw [h.selfRefAt_eq (mk_mem_zipIdx_iff_getElem?.mp hmem)]
  rw [hfilter, keptSlots, range_eq_range', ← zipIdx_map_snd, filter_map]
  rfl

/-- The texts that stay, by their new slots. -/
theorem getElem?_keptTexts (h : Named texts) {next : ℕ} {kept : BaseTextItem × ℕ} :
  (keptTexts absorbedBy texts)[next]? = some kept ↔
    (keptSlots absorbedBy texts.length)[next]? = some kept.2 ∧ texts[kept.2]? = some kept.1
  := by
  have hslot : (keptSlots absorbedBy texts.length)[next]? =
      ((keptTexts absorbedBy texts)[next]?).map (·.2) := by
    rw [← map_snd_keptTexts h, getElem?_map]
  constructor
  · intro hkept
    rw [hslot, hkept]
    exact ⟨rfl, getElem?_of_mem_keptTexts (mem_of_getElem? hkept)⟩
  · rintro ⟨hindex, hitem⟩
    rw [hslot] at hindex
    obtain ⟨⟨other, index⟩, hkept, rfl⟩ := Option.map_eq_some_iff.mp hindex
    have hother := getElem?_of_mem_keptTexts (mem_of_getElem? hkept)
    obtain rfl : other = kept.1 := Option.some.inj (hother.symm.trans hitem)
    exact hkept

theorem nodup_keptSlots (absorbedBy : RefMap) (count : ℕ) :
  (keptSlots absorbedBy count).Nodup
  := nodup_range.filter _

/-- A text that stays is renamed to its new slot. -/
theorem rename_renumberKept (h : Named texts) {next index : ℕ}
    (hindex : (keptSlots absorbedBy texts.length)[next]? = some index) :
  (renumberKept (keptTexts absorbedBy texts)).rename (slotRef kTexts index) =
    slotRef kTexts next
  := by
  have hslot : ∀ (kept : BaseTextItem × ℕ) next',
      (kept, next') ∈ (keptTexts absorbedBy texts).zipIdx →
      (keptSlots absorbedBy texts.length)[next']? = some kept.2 ∧
        kept.1.selfRefAt kept.2 = slotRef kTexts kept.2 := by
    intro kept next' hmem
    obtain ⟨hkept, hitem⟩ := (getElem?_keptTexts h).mp (List.mk_mem_zipIdx_iff_getElem?.mp hmem)
    exact ⟨hkept, h.selfRefAt_eq hitem⟩
  have hunique : ∀ next', (keptSlots absorbedBy texts.length)[next']? = some index →
      next' = next := by
    intro next' hnext'
    obtain ⟨hlt, heq⟩ := List.getElem?_eq_some_iff.mp hindex
    obtain ⟨hlt', heq'⟩ := List.getElem?_eq_some_iff.mp hnext'
    exact ((nodup_keptSlots absorbedBy texts.length).getElem_inj_iff).mp (heq'.trans heq.symm)
  rw [rename, renumberKept]
  by_cases hsame : index = next
  · rw [Map.lookup_insertAll_of_notMem, hsame]
    · rfl
    · intro entry hentry hkey
      obtain ⟨⟨kept, next'⟩, hmem, hentry⟩ := List.mem_filterMap.mp hentry
      obtain ⟨hkept, hself⟩ := hslot kept next' hmem
      dsimp only at hentry
      split at hentry
      next => cases hentry
      next hne =>
        obtain rfl := Option.some.inj hentry
        rw [hself] at hkey hne
        rw [slotRef_injective _ hkey] at hkept hne
        exact hne (by rw [hunique next' hkept, hsame])
  · have hkept : ∃ item, (keptTexts absorbedBy texts)[next]? = some (item, index) := by
      rw [← map_snd_keptTexts h, List.getElem?_map] at hindex
      obtain ⟨⟨item, index'⟩, hkept, rfl⟩ := Option.map_eq_some_iff.mp hindex
      exact ⟨item, hkept⟩
    obtain ⟨item, hkept⟩ := hkept
    have hself := h.selfRefAt_eq ((getElem?_keptTexts h).mp hkept).2
    rw [Option.getD_eq_iff]
    left
    apply Map.lookup_insertAll_of_mem
    · refine List.mem_filterMap.mpr ⟨((item, index), next),
        List.mk_mem_zipIdx_iff_getElem?.mpr hkept, ?_⟩
      dsimp only
      rw [hself, if_neg fun heq => hsame (slotRef_injective _ heq)]
    · intro entry hentry hkey
      obtain ⟨⟨kept, next'⟩, hmem, hentry⟩ := List.mem_filterMap.mp hentry
      obtain ⟨hkept', hself'⟩ := hslot kept next' hmem
      dsimp only at hentry
      split at hentry
      next => cases hentry
      next =>
        obtain rfl := Option.some.inj hentry
        rw [hself'] at hkey
        rw [slotRef_injective _ hkey] at hkept'
        rw [hunique next' hkept']

/-- What names no text that stays is not renamed. -/
theorem rename_renumberKept_other (h : Named texts) {ref : String}
    (href : ∀ index ∈ keptSlots absorbedBy texts.length, ref ≠ slotRef kTexts index) :
  (renumberKept (keptTexts absorbedBy texts)).rename ref = ref
  := by
  rw [rename, renumberKept, Map.lookup_insertAll_of_notMem]
  · rfl
  · intro entry hentry hkey
    obtain ⟨⟨kept, next⟩, hmem, hentry⟩ := mem_filterMap.mp hentry
    obtain ⟨hkept, hitem⟩ := (getElem?_keptTexts h).mp (mk_mem_zipIdx_iff_getElem?.mp hmem)
    dsimp only at hentry
    split at hentry
    next => cases hentry
    next =>
      obtain rfl := Option.some.inj hentry
      rw [h.selfRefAt_eq hitem] at hkey
      exact href kept.2 (mem_of_getElem? hkept) hkey.symm

theorem mem_entries {entry : String × String} :
  entry ∈ absorbedBy.entries ↔ entry.1 ∈ absorbedBy ∧ entry.2 = absorbedBy.rename entry.1
  := by
  rw [entries, mem_map]
  constructor
  · rintro ⟨ref, href, rfl⟩
    exact ⟨Finmap.mem_keys.mp ((Finset.mem_sort _).mp href), rfl⟩
  · rintro ⟨hkey, hvalue⟩
    exact ⟨entry.1, (Finset.mem_sort _).mpr (Finmap.mem_keys.mpr hkey), by rw [← hvalue]⟩

/-- The survivor of a retired text stays. -/
theorem Absorbs.rename_notMem (h : Absorbs absorbedBy texts) {ref : String}
    (href : ref ∈ absorbedBy) :
  absorbedBy.rename ref ∉ absorbedBy
  := by
  obtain ⟨survivor, hsurvivor⟩ := Finmap.mem_iff.mp href
  rw [rename, hsurvivor]
  exact (h.values ref survivor hsurvivor).1

/-- The retired texts are renamed as their survivors, all else as before. -/
theorem rename_renumberRetired (h : ∀ ref ∈ absorbedBy, absorbedBy.rename ref ∉ absorbedBy)
    (renumbering : RefMap) (ref : String) :
  (renumberRetired absorbedBy renumbering).rename ref =
    renumbering.rename (absorbedBy.rename ref)
  := by
  have hfold : ∀ entries : List (String × String), entries ⊆ absorbedBy.entries → ∀ ref,
      rename (entries.foldl (fun renumbering entry =>
          Finmap.insert entry.1 (rename renumbering entry.2) renumbering) renumbering) ref =
        if ref ∈ entries.map (·.1) then renumbering.rename (absorbedBy.rename ref)
        else renumbering.rename ref := by
    intro entries
    induction entries using reverseRecOn with
    | nil => exact fun _ _ => rfl
    | append_singleton entries entry ih =>
      intro hsubset ref
      obtain ⟨key, value⟩ := entry
      have hentries : entries ⊆ absorbedBy.entries := fun _ hmem =>
        hsubset (mem_append_left _ hmem)
      obtain ⟨hkey, hvalue⟩ := mem_entries.mp (hsubset (mem_append_right _ (.head _)))
      dsimp only at hkey hvalue
      have hsurvivor : value ∉ entries.map (·.1) := by
        intro hmem
        obtain ⟨other, hother, heq⟩ := mem_map.mp hmem
        apply h key hkey
        rw [← hvalue, ← heq]
        exact (mem_entries.mp (hentries hother)).1
      rw [foldl_append, foldl_cons, foldl_nil, rename,
        ih hentries value, if_neg hsurvivor]
      by_cases href : ref = key
      · subst href
        rw [Finmap.lookup_insert, if_pos (by simp), hvalue]
        rfl
      · rw [Finmap.lookup_insert_of_ne _ href, ← rename, ih hentries ref]
        have hmem : ref ∈ (entries ++ [(key, value)]).map (·.1) ↔ ref ∈ entries.map (·.1) := by
          simp [href]
        exact if_congr hmem.symm rfl rfl
  rw [renumberRetired, hfold _ (List.Subset.refl _)]
  split
  · rfl
  next hmem =>
    have href : ref ∉ absorbedBy := fun href => hmem (mem_map.mpr
      ⟨(ref, absorbedBy.rename ref), mem_entries.mpr ⟨href, rfl⟩, rfl⟩)
    rw [rename_of_notMem href]

/-! ### Who adopts whom -/

namespace BaseTextItem

/-- The children of a text item; one that is not set has none. -/
def childrenOf (item : BaseTextItem) : List RefItem :=
  item.textChildren.getD []

theorem selfRefOf_modifyBase {f : TextItemBase → TextItemBase}
    (hf : ∀ base, (f base).selfRef = base.selfRef) (item : BaseTextItem) :
  selfRefOf (item.modifyBase f) = selfRefOf item
  := by
  cases item with
  | notSet => rfl
  | based kind base rest => exact hf (base.getD {})
  | code item => exact hf item

@[simp]
theorem childless_withChildren (children : List RefItem) (item : BaseTextItem) :
  (item.withChildren children).childless = item.childless
  := by
  cases item <;> rfl

theorem selfRefOf_childless (item : BaseTextItem) :
  selfRefOf item.childless = selfRefOf item
  := by
  rw [childless, withChildren]
  apply selfRefOf_modifyBase
  exact fun _ => rfl

/-- An item with a reference has fields. -/
theorem textChildren_eq_some (h : selfRefOf item ≠ "") :
  item.textChildren = some item.childrenOf
  := by
  cases item with
  | notSet => exact absurd rfl h
  | _ => rfl

theorem childrenOf_withChildren (h : selfRefOf item ≠ "") (children : List RefItem) :
  (item.withChildren children).childrenOf = children
  := by
  cases item with
  | notSet => exact absurd rfl h
  | _ => rfl

end BaseTextItem

theorem mem_adopt {adopting moving : List RefItem} {child : RefItem} :
  child ∈ adopt adopting moving ↔ child ∈ adopting ∨ child ∈ moving
  := by
  induction moving generalizing adopting with
  | nil => simp [adopt]
  | cons first moving ih =>
    rw [adopt, foldl_cons, ← adopt, ih, mem_cons]
    split
    next hlisted =>
      constructor
      · tauto
      · rintro (h | rfl | h) <;> tauto
    next =>
      rw [mem_append, mem_singleton]
      tauto

theorem textPosition_slotRef (h : Named texts) {index : ℕ} (hindex : index < texts.length) :
  textPosition texts (slotRef kTexts index) = some index
  := by
  rw [textPosition, findIdx?_eq_some_iff_getElem]
  refine ⟨by rwa [length_zipIdx], ?_, ?_⟩
  · simpa using h.selfRefAt_eq (getElem?_eq_getElem hindex)
  · intro other hother
    have hself := h.selfRefAt_eq (getElem?_eq_getElem (hother.trans hindex))
    simp only [getElem_zipIdx, Nat.zero_add, hself, decide_eq_true_eq]
    exact fun heq => hother.ne (slotRef_injective _ heq)

theorem survivorOf_of_notMem {survivor : String} (h : survivor ∉ absorbedBy) (hops : ℕ) :
  survivorOf absorbedBy hops survivor = survivor
  := by
  cases hops with
  | zero => rfl
  | succ hops => rw [survivorOf, Finmap.lookup_eq_none.mpr h]

/-- The given retired items were dealt with: their children are listed by their survivors, and
nothing else has changed, but for their own children. -/
structure Adopted (absorbedBy : RefMap) (texts : List BaseTextItem) (done : List String)
    (texts' : List BaseTextItem) : Prop where
  length : texts'.length = texts.length
  childless : ∀ (index : ℕ) (item item' : BaseTextItem), texts[index]? = some item →
    texts'[index]? = some item' → item'.childless = item.childless
  untouched : ∀ index, slotRef kTexts index ∈ absorbedBy → slotRef kTexts index ∉ done →
    texts'[index]? = texts[index]?
  children : ∀ index, slotRef kTexts index ∉ absorbedBy → ∀ item item' : BaseTextItem,
    texts[index]? = some item → texts'[index]? = some item' → ∀ child,
      child ∈ item'.childrenOf ↔ child ∈ item.childrenOf ∨
        ∃ (source : ℕ) (moved : BaseTextItem), texts[source]? = some moved ∧
          slotRef kTexts source ∈ done ∧
          absorbedBy.rename (slotRef kTexts source) = slotRef kTexts index ∧
          child ∈ moved.childrenOf

theorem Adopted.refl (absorbedBy : RefMap) (texts : List BaseTextItem) :
  Adopted absorbedBy texts [] texts
  where
  length := rfl
  childless := by
    intro index item item' hitem hitem'
    rw [Option.some.inj (hitem.symm.trans hitem')]
  untouched _ _ _ := rfl
  children := by
    intro index _ item item' hitem hitem' child
    rw [Option.some.inj (hitem.symm.trans hitem')]
    simp

/-- Texts that differ in their children only carry the same references. -/
theorem Adopted.named {done : List String} {texts' : List BaseTextItem}
    (h : Adopted absorbedBy texts done texts') (hnamed : Named texts) :
  Named texts'
  := by
  intro index item' hitem'
  obtain ⟨hlt, -⟩ := List.getElem?_eq_some_iff.mp hitem'
  obtain ⟨item, hitem⟩ : ∃ item, texts[index]? = some item :=
    ⟨_, List.getElem?_eq_getElem (h.length ▸ hlt)⟩
  have hchildless := congrArg selfRefOf (h.childless index item item' hitem hitem')
  rw [selfRefOf_childless, selfRefOf_childless] at hchildless
  rw [hchildless, hnamed index item hitem]

/-- The children of one more retired item move. -/
theorem Adopted.step {done : List String} {texts' : List BaseTextItem}
    (h : Adopted absorbedBy texts done texts') (hnamed : Named texts)
    (habsorbs : Absorbs absorbedBy texts) {entry : String × String}
    (hentry : entry ∈ absorbedBy.entries) (hdone : entry.1 ∉ done) :
  Adopted absorbedBy texts (done ++ [entry.1]) (adoptEntry absorbedBy texts texts' entry)
  := by
  obtain ⟨ref, survivor⟩ := entry
  obtain ⟨href, hvalue⟩ := mem_entries.mp hentry
  dsimp only at href hdone hvalue ⊢
  have hsurvivor := habsorbs.rename_notMem href
  obtain ⟨source, hsource, rfl⟩ := habsorbs.keys ref href
  obtain ⟨target, htarget, heq⟩ : ∃ target < texts.length,
      absorbedBy.rename (slotRef kTexts source) = slotRef kTexts target := by
    obtain ⟨name, hname⟩ := Finmap.mem_iff.mp href
    rw [rename, hname]
    exact (habsorbs.values _ _ hname).2
  obtain rfl : survivor = slotRef kTexts target := hvalue.trans heq
  rw [heq] at hsurvivor
  have hne : source ≠ target := by
    rintro rfl
    exact hsurvivor href
  obtain ⟨moved, hmoved⟩ : ∃ moved, texts[source]? = some moved :=
    ⟨_, getElem?_eq_getElem hsource⟩
  obtain ⟨adopter, hadopter⟩ : ∃ adopter, texts'[target]? = some adopter :=
    ⟨_, getElem?_eq_getElem (h.length.symm ▸ htarget)⟩
  have hset : ∀ {texts : List BaseTextItem}, Named texts → ∀ {index : ℕ} {item},
      texts[index]? = some item → selfRefOf item ≠ "" := by
    intro texts hnamed index item hitem
    rw [hnamed index item hitem]
    exact slotRef_kTexts_ne_empty index
  have hnamed' := h.named hnamed
  have hresult : ∀ index, (adoptEntry absorbedBy texts texts'
      (slotRef kTexts source, slotRef kTexts target))[index]? = texts'[index]?.map fun item =>
        if source = index then item.withChildren []
        else if target = index then
          item.withChildren (adopt adopter.childrenOf moved.childrenOf)
        else item := by
    intro index
    rw [adoptEntry, survivorOf_of_notMem hsurvivor, textPosition_slotRef hnamed hsource,
      textPosition_slotRef hnamed htarget]
    dsimp only
    rw [if_neg hne, h.untouched source href hdone, hmoved, hadopter, Option.bind_some,
      Option.bind_some, textChildren_eq_some (hset hnamed hmoved),
      textChildren_eq_some (hset hnamed' hadopter)]
    dsimp only
    rw [getElem?_modify, getElem?_modify]
    cases texts'[index]? with
    | none => rfl
    | some item =>
      by_cases hindex : source = index
      · simp [hindex, hindex ▸ hne.symm]
      · simp [hindex]
  constructor
  case length =>
    rw [← h.length]
    unfold adoptEntry
    split <;> try rfl
    split <;> try rfl
    split <;> try rfl
    rw [length_modify, length_modify]
  case childless =>
    intro index item item'' hitem hitem''
    rw [hresult] at hitem''
    obtain ⟨item', hitem', rfl⟩ := Option.map_eq_some_iff.mp hitem''
    rw [← h.childless index item item' hitem hitem']
    split_ifs <;> simp
  case untouched =>
    intro index hindex hlast
    rw [mem_append, mem_singleton, not_or] at hlast
    have hsource : source ≠ index := fun h => hlast.2 (by rw [h])
    have htarget : target ≠ index := fun h => hsurvivor (by rwa [h])
    rw [hresult, ← h.untouched index hindex hlast.1]
    simp [hsource, htarget]
  case children =>
    intro index hindex item item'' hitem hitem'' child
    have hsource : source ≠ index := fun h => hindex (by rwa [← h])
    rw [hresult] at hitem''
    obtain ⟨item', hitem', rfl⟩ := Option.map_eq_some_iff.mp hitem''
    have hchildren := h.children index hindex item item' hitem hitem' child
    rw [if_neg hsource]
    split
    next htarget =>
      subst htarget
      obtain rfl := Option.some.inj (hitem'.symm.trans hadopter)
      rw [childrenOf_withChildren (hset hnamed' hitem'), mem_adopt, hchildren,
        or_assoc]
      apply or_congr_right
      constructor
      · rintro (⟨other, others, hother, hin, hrest⟩ | hchild)
        · exact ⟨other, others, hother, mem_append_left _ hin, hrest⟩
        · exact ⟨source, moved, hmoved, mem_append_right _ (.head _), heq, hchild⟩
      · rintro ⟨other, others, hother, hin, hrest⟩
        obtain hin | hin := mem_append.mp hin
        · exact .inl ⟨other, others, hother, hin, hrest⟩
        · obtain rfl := slotRef_injective _ (mem_singleton.mp hin)
          obtain rfl := Option.some.inj (hmoved.symm.trans hother)
          exact .inr hrest.2
    next htarget =>
      rw [hchildren]
      apply or_congr_right
      constructor
      · rintro ⟨other, others, hother, hin, hrest⟩
        exact ⟨other, others, hother, mem_append_left _ hin, hrest⟩
      · rintro ⟨other, others, hother, hin, hrest⟩
        obtain hin | hin := mem_append.mp hin
        · exact ⟨other, others, hother, hin, hrest⟩
        · rw [mem_singleton.mp hin, heq] at hrest
          exact absurd (slotRef_injective _ hrest.1) htarget

/-- Every retired item is dealt with. -/
theorem adopted_adoptChildren (hnamed : Named texts) (habsorbs : Absorbs absorbedBy texts) :
  Adopted absorbedBy texts (absorbedBy.entries.map (·.1)) (adoptChildren absorbedBy texts)
  := by
  have hnodup : (absorbedBy.entries.map (·.1)).Nodup := by
    rw [entries, map_map, show (fun entry : String × String => entry.1) ∘
      (fun ref => (ref, absorbedBy.rename ref)) = id from rfl, map_id]
    exact Finset.sort_nodup _ _
  have hfold : ∀ done rest, absorbedBy.entries = done ++ rest →
      Adopted absorbedBy texts (done.map (·.1))
        (done.foldl (adoptEntry absorbedBy texts) texts) := by
    intro done
    induction done using reverseRecOn with
    | nil => exact fun _ _ => .refl absorbedBy texts
    | append_singleton done entry ih =>
      intro rest hentries
      rw [append_assoc] at hentries
      rw [foldl_append, map_append]
      apply (ih _ hentries).step hnamed habsorbs
      · rw [hentries]
        simp
      · rw [hentries, map_append, nodup_append] at hnodup
        intro hmem
        exact hnodup.2.2 _ hmem _ (by simp) rfl
  exact hfold absorbedBy.entries [] (append_nil _).symm

/-! ### The document that results -/

namespace BaseTextItem

theorem selfRefOf_pruneIfParent (parents retired : Finset String) (item : BaseTextItem) :
  selfRefOf (item.pruneIfParent parents retired) = selfRefOf item
  := by
  rw [pruneIfParent]
  apply selfRefOf_modifyBase
  intro base
  rw [DocItem.pruneIfParent, NodeItem.pruneIfParent]
  split <;> rfl

theorem childless_pruneIfParent (parents retired : Finset String) (item : BaseTextItem) :
  (item.pruneIfParent parents retired).childless = item.childless
  := by
  cases item with
  | notSet => rfl
  | _ =>
    simp only [pruneIfParent, modifyBase, childless, withChildren, DocItem.pruneIfParent,
      NodeItem.pruneIfParent]
    split <;> rfl

theorem childrenOf_pruneIfParent (parents retired : Finset String) (item : BaseTextItem) :
  (item.pruneIfParent parents retired).childrenOf =
    if selfRefOf item ∈ parents then item.childrenOf.filter fun child => child.ref ∉ retired
    else item.childrenOf
  := by
  cases item with
  | notSet => exact (ite_self _).symm
  | based kind base rest =>
    show ((base.getD {}).toNodeItem.pruneIfParent parents retired).children = _
    rw [NodeItem.pruneIfParent]
    split
    next h => exact (if_pos h).symm
    next h => exact (if_neg h).symm
  | code item =>
    show (item.toNodeItem.pruneIfParent parents retired).children = _
    rw [NodeItem.pruneIfParent]
    split
    next h => exact (if_pos h).symm
    next h => exact (if_neg h).symm

theorem selfRefOf_rewriteRefs (mapping : RefMap) (h : selfRefOf item ≠ "") :
  selfRefOf (item.rewriteRefs mapping) = mapping.rename (selfRefOf item)
  := by
  cases item with
  | notSet => exact absurd rfl h
  | based kind base rest =>
    cases base with
    | none => exact absurd rfl h
    | some base => rfl
  | code item => rfl

theorem childless_rewriteRefs (mapping : RefMap) (h : selfRefOf item ≠ "") :
  (item.rewriteRefs mapping).childless = item.childless.rewriteRefs mapping
  := by
  cases item with
  | notSet => exact absurd rfl h
  | based kind base rest =>
    cases base with
    | none => exact absurd rfl h
    | some base => rfl
  | code item => rfl

theorem childrenOf_rewriteRefs (mapping : RefMap) (h : selfRefOf item ≠ "") :
  (item.rewriteRefs mapping).childrenOf = item.childrenOf.map (RefItem.rewriteRefs mapping)
  := by
  cases item with
  | notSet => exact absurd rfl h
  | based kind base rest =>
    cases base with
    | none => exact absurd rfl h
    | some base => rfl
  | code item => rfl

end BaseTextItem

/-- The retired items are gone.  The texts that stay have moved up and are as they were, and
each reference in the document follows the text it named: those to a text that stays name it in
its new slot, those to a retired one name its survivor, all others are as they were.  Groups and
roots list no retired item, and other items none that named them as its parent.  A text that
stays lists its own children and the ones of the items it absorbed, and no others. -/
structure Retired (document : FullDocument) (absorbedBy : RefMap) (result : FullDocument)
    (mapping : RefMap) : Prop where
  count : result.texts.length = (keptSlots absorbedBy document.texts.length).length
  texts : ∀ next index, (keptSlots absorbedBy document.texts.length)[next]? = some index →
    ∃ item item', document.texts[index]? = some item ∧ result.texts[next]? = some item' ∧
      selfRefOf item' = slotRef kTexts next ∧
      item'.childless = item.childless.rewriteRefs mapping ∧
      (∀ child ∈ item.childrenOf,
        child.ref ∉ absorbedBy ∨ selfRefOf item ∉ retiredParents absorbedBy document.texts →
        child.rewriteRefs mapping ∈ item'.childrenOf) ∧
      (∀ (source : ℕ) moved, document.texts[source]? = some moved →
        slotRef kTexts source ∈ absorbedBy →
        absorbedBy.rename (slotRef kTexts source) = slotRef kTexts index →
        ∀ child ∈ moved.childrenOf, child.ref ∉ absorbedBy →
          child.rewriteRefs mapping ∈ item'.childrenOf) ∧
      ∀ child' ∈ item'.childrenOf, ∃ child, child' = child.rewriteRefs mapping ∧
        (child ∈ item.childrenOf ∨ ∃ (source : ℕ) (moved : BaseTextItem),
          document.texts[source]? = some moved ∧ slotRef kTexts source ∈ absorbedBy ∧
          absorbedBy.rename (slotRef kTexts source) = slotRef kTexts index ∧
          child ∈ moved.childrenOf)
  kept : ∀ next index, (keptSlots absorbedBy document.texts.length)[next]? = some index →
    mapping.rename (slotRef kTexts index) = slotRef kTexts next
  retired : ∀ ref ∈ absorbedBy, mapping.rename ref = mapping.rename (absorbedBy.rename ref)
  others : ∀ ref, (∀ index < document.texts.length, ref ≠ slotRef kTexts index) →
    mapping.rename ref = ref
  body : result.body =
    some (((document.body.getD {}).pruneChildren absorbedBy.keys).rewriteRefs mapping)
  furniture : result.furniture =
    some (((document.furniture.getD {}).pruneChildren absorbedBy.keys).rewriteRefs mapping)
  groups : result.groups =
    document.groups.map fun group => (group.pruneChildren absorbedBy.keys).rewriteRefs mapping
  pictures : result.pictures.map (·.toDocItem) = document.pictures.map fun picture =>
    (picture.pruneIfParent (retiredParents absorbedBy document.texts)
      absorbedBy.keys).rewriteRefs mapping
  tables : result.tables.map (·.toDocItem) = document.tables.map fun table =>
    (table.pruneIfParent (retiredParents absorbedBy document.texts)
      absorbedBy.keys).rewriteRefs mapping
  nodes : ∀ arena ∈ [FullDocument.keyValueItems, FullDocument.formItems,
      FullDocument.fieldRegions, FullDocument.fieldItems],
    arena result = (arena document).map fun item =>
      (item.pruneIfParent (retiredParents absorbedBy document.texts)
        absorbedBy.keys).rewriteRefs mapping
  pages : result.pages = document.pages.mapValues (PageItem.rewriteRefs mapping)
  rest : result.rest = rewriteRest mapping document.rest

theorem retired_retireTextItems {document : FullDocument} (hnamed : Named document.texts)
    (habsorbs : Absorbs absorbedBy document.texts) :
  Retired document absorbedBy (retireTextItems document absorbedBy)
    (retireRenumbering absorbedBy (adoptChildren absorbedBy document.texts))
  := by
  have hadopted := adopted_adoptChildren hnamed habsorbs
  have hnamed' := hadopted.named hnamed
  have hrename := rename_renumberRetired (fun _ => habsorbs.rename_notMem)
    (renumberKept (keptTexts absorbedBy (adoptChildren absorbedBy document.texts)))
  rw [← retireRenumbering] at hrename
  have hkept : ∀ next index, (keptSlots absorbedBy document.texts.length)[next]? = some index →
      (retireRenumbering absorbedBy (adoptChildren absorbedBy document.texts)).rename
        (slotRef kTexts index) = slotRef kTexts next := by
    intro next index hindex
    have hstays : slotRef kTexts index ∉ absorbedBy := by
      simpa using (List.mem_filter.mp (List.mem_of_getElem? hindex)).2
    rw [hrename, RefMap.rename_of_notMem hstays]
    exact rename_renumberKept hnamed' (by rwa [hadopted.length])
  constructor
  case count =>
    rw [← hadopted.length, ← map_snd_keptTexts hnamed']
    simp [retireTextItems, FullDocument.rewriteReferences, Document.rewriteReferences,
      FullDocument.pruneRetired]
  case texts =>
    intro next index hindex
    obtain ⟨hrange, hstays⟩ := List.mem_filter.mp (List.mem_of_getElem? hindex)
    replace hrange := List.mem_range.mp hrange
    replace hstays : slotRef kTexts index ∉ absorbedBy := by simpa using hstays
    obtain ⟨item, hitem⟩ : ∃ item, document.texts[index]? = some item :=
      ⟨_, List.getElem?_eq_getElem hrange⟩
    obtain ⟨adopter, hadopter⟩ :
        ∃ adopter, (adoptChildren absorbedBy document.texts)[index]? = some adopter :=
      ⟨_, List.getElem?_eq_getElem (hadopted.length.symm ▸ hrange)⟩
    have hself := hnamed' index adopter hadopter
    have hchildren := hadopted.children index hstays item adopter hitem hadopter
    set pruned := adopter.pruneIfParent (retiredParents absorbedBy document.texts)
      absorbedBy.keys with hpruned
    have hselfPruned : selfRefOf pruned = slotRef kTexts index := by
      rw [hpruned, BaseTextItem.selfRefOf_pruneIfParent, hself]
    have hset : selfRefOf pruned ≠ "" := hselfPruned ▸ slotRef_kTexts_ne_empty index
    have hlisted : ∀ child ∈ adopter.childrenOf,
        child.ref ∉ absorbedBy ∨ selfRefOf adopter ∉ retiredParents absorbedBy document.texts →
        child ∈ pruned.childrenOf := by
      intro child hchild hstays
      rw [hpruned, BaseTextItem.childrenOf_pruneIfParent]
      split
      next hparent =>
        apply List.mem_filter.mpr
        exact ⟨hchild, by simpa [hparent, Finmap.mem_keys] using hstays⟩
      next => exact hchild
    refine ⟨item, pruned.rewriteRefs (retireRenumbering absorbedBy
      (adoptChildren absorbedBy document.texts)), hitem, ?_, ?_, ?_, ?_, ?_, ?_⟩
    · have hslot : (keptTexts absorbedBy (adoptChildren absorbedBy document.texts))[next]? =
          some (adopter, index) :=
        (getElem?_keptTexts hnamed').mpr ⟨by rwa [hadopted.length], hadopter⟩
      simp [retireTextItems, FullDocument.rewriteReferences, Document.rewriteReferences,
        FullDocument.pruneRetired, hslot, hpruned]
    · rw [BaseTextItem.selfRefOf_rewriteRefs _ hset, hselfPruned, hkept next index hindex]
    · rw [BaseTextItem.childless_rewriteRefs _ hset, hpruned,
        BaseTextItem.childless_pruneIfParent,
        hadopted.childless index item adopter hitem hadopter]
    · intro child hchild hown
      rw [BaseTextItem.childrenOf_rewriteRefs _ hset]
      apply List.mem_map_of_mem
      apply hlisted child ((hchildren child).mpr (.inl hchild))
      rwa [hself, ← hnamed index item hitem]
    · intro source moved hmoved hsource hsurvivor child hchild hchildStays
      rw [BaseTextItem.childrenOf_rewriteRefs _ hset]
      apply List.mem_map_of_mem
      refine hlisted child ((hchildren child).mpr (.inr ⟨source, moved, hmoved, ?_, hsurvivor,
        hchild⟩)) (.inl hchildStays)
      exact List.mem_map.mpr ⟨(slotRef kTexts source, absorbedBy.rename (slotRef kTexts source)),
        mem_entries.mpr ⟨hsource, rfl⟩, rfl⟩
    · intro child' hchild'
      rw [BaseTextItem.childrenOf_rewriteRefs _ hset] at hchild'
      obtain ⟨child, hchild, rfl⟩ := List.mem_map.mp hchild'
      refine ⟨child, rfl, ?_⟩
      rw [hpruned, BaseTextItem.childrenOf_pruneIfParent] at hchild
      have hadopts : child ∈ adopter.childrenOf := by
        split at hchild
        · exact List.mem_of_mem_filter hchild
        · exact hchild
      obtain hown | ⟨source, moved, hmoved, hdone, hrest⟩ := (hchildren child).mp hadopts
      · exact .inl hown
      · obtain ⟨entry, hentry, heq⟩ := List.mem_map.mp hdone
        exact .inr ⟨source, moved, hmoved, heq ▸ (mem_entries.mp hentry).1, hrest⟩
  case kept => exact hkept
  case retired =>
    intro ref href
    rw [hrename, hrename, RefMap.rename_of_notMem (habsorbs.rename_notMem href)]
  case others =>
    intro ref href
    have hstays : ref ∉ absorbedBy := by
      intro hmem
      obtain ⟨index, hindex, heq⟩ := habsorbs.keys ref hmem
      exact href index hindex heq
    rw [hrename, RefMap.rename_of_notMem hstays]
    apply rename_renumberKept_other hnamed'
    intro index hindex
    rw [hadopted.length] at hindex
    exact href index (List.mem_range.mp (List.mem_of_mem_filter hindex))
  case body => rfl
  case furniture => rfl
  case groups => exact List.map_map
  case pictures =>
    simp [retireTextItems, FullDocument.rewriteReferences, Document.rewriteReferences,
      FullDocument.pruneRetired, PictureItem.rewriteRefs, Function.comp_def]
  case tables =>
    simp [retireTextItems, FullDocument.rewriteReferences, Document.rewriteReferences,
      FullDocument.pruneRetired, TableItem.rewriteRefs, Function.comp_def]
  case nodes =>
    intro arena harena
    simp only [List.mem_cons, List.not_mem_nil, or_false] at harena
    obtain rfl | rfl | rfl | rfl := harena <;> exact List.map_map
  case pages => rfl
  case rest => rfl

/-- A child that a retired item listed is listed by the survivor exactly when it names the
survivor as its parent. -/
def ListedByParent (document : FullDocument) (absorbedBy : RefMap) : Prop :=
  let result := retireTextItems document absorbedBy
  let mapping := retireRenumbering absorbedBy (adoptChildren absorbedBy document.texts)
  ∀ (source : ℕ) moved, document.texts[source]? = some moved →
    slotRef kTexts source ∈ absorbedBy → ∀ child ∈ moved.childrenOf,
    ∀ (next target : ℕ) (item survivor : BaseTextItem),
      mapping.rename child.ref = slotRef kTexts next → result.texts[next]? = some item →
      mapping.rename (slotRef kTexts source) = slotRef kTexts target →
      result.texts[target]? = some survivor →
      (⟨slotRef kTexts next⟩ ∈ survivor.childrenOf ↔ parentOf item = slotRef kTexts target)

/-- A text in the given slot, under the body, with the given children. -/
def textUnderBody (index : ℕ) (children : List RefItem) : BaseTextItem :=
  .based .text (some { selfRef := slotRef kTexts index, parent := some ⟨"#/body"⟩, children }) .done

/-- Three texts under the body, of which the second one lists the third. -/
def strayChild : FullDocument where
  texts := [textUnderBody 0 [], textUnderBody 1 [⟨slotRef kTexts 2⟩], textUnderBody 2 []]

/-- The second text is absorbed by the first. -/
def absorbSecond : RefMap :=
  Finmap.singleton (slotRef kTexts 1) (slotRef kTexts 0)

theorem retired_strayChild :
  Retired strayChild absorbSecond (retireTextItems strayChild absorbSecond)
    (retireRenumbering absorbSecond (adoptChildren absorbSecond strayChild.texts))
  := by
  apply retired_retireTextItems
  · intro index item hitem
    obtain ⟨hindex, rfl⟩ := List.getElem?_eq_some_iff.mp hitem
    rcases index with _ | _ | _ | index
    · rfl
    · rfl
    · rfl
    · exact absurd hindex (by simp [strayChild])
  · have hkey : ∀ ref ∈ absorbSecond, ref = slotRef kTexts 1 := fun ref href =>
      (Finmap.mem_singleton _ _ _).mp href
    constructor
    · exact fun ref href => ⟨1, by decide, hkey ref href⟩
    · intro ref survivor hsurvivor
      obtain rfl := hkey ref (Finmap.mem_of_lookup_eq_some hsurvivor)
      rw [absorbSecond, Finmap.lookup_singleton_eq] at hsurvivor
      obtain rfl := Option.some.inj hsurvivor
      exact ⟨by decide +kernel, 0, by decide, rfl⟩

/-- The third text moves to the first, whatever it names as its parent. -/
theorem not_listedByParent_strayChild :
  ¬ ListedByParent strayChild absorbSecond
  := by
  intro h
  have := h 1 (textUnderBody 1 [⟨slotRef kTexts 2⟩]) rfl (by decide +kernel) ⟨slotRef kTexts 2⟩
    (.head _) 1 0 (textUnderBody 1 []) (textUnderBody 0 [⟨slotRef kTexts 1⟩])
    (by decide +kernel) (by decide +kernel) (by decide +kernel) (by decide +kernel)
  revert this
  decide +kernel

end GRParse
