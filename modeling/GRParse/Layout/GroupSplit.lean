import GRParse.Layout.Geometry
import GRParse.Lib.Lists

/-!
# Splitting groups around floats

A table or picture of the body that sits between the members of a list group splits it into
the members before it and a group of those behind.  Splitting goes on until no float sits in a
group.  Each split takes a joint between two members of a group away, so this ends, and a
document without such a float has none either once its body is in another order.
-/

namespace GRParse.Layout

open Lists List Option

/-! ### Where a group is split -/

def isFloatLabel (label : DocItemLabel) : Bool :=
  label = .table || label = .picture

/-- What has been seen of the members of a group: where it is to be split, whether a member
above the float came before, and how far the members reach to both sides. -/
structure SplitScan where
  split : Option ℕ := none
  above : Bool := false
  hull : Option (ℚ × ℚ) := none

def SplitScan.reach (scan : SplitScan) (box : TopDownBox) : SplitScan :=
  { scan with hull := match scan.hull with
      | none => some (box.left, box.right)
      | some (left, right) => some (min left box.left, max right box.right) }

section

variable (arenas : Arenas) (heights : PageHeights)

/-- A member of the group: nothing is to be split when it is no text or on another page. -/
def scanChild (floating : ItemPlacement) (scan : SplitScan) (entry : RefItem × ℕ) :
    Option SplitScan :=
  if (arenaIndex entry.1.ref kTexts).isNone then none
  else
    match arenas.itemPlacement heights entry.1.ref with
    | none => some scan
    | some placement =>
      if placement.page ≠ floating.page then none
      else if scan.split.isSome then some (scan.reach placement.box)
      else if floating.box.top ≤ placement.box.top then
        some { scan.reach placement.box with split := some entry.2 }
      else some { scan.reach placement.box with above := true }

/-- `split_position`. -/
def splitPosition (group : GroupItem) (floating : ItemPlacement) : Option ℕ :=
  (group.children.zipIdx.foldlM (scanChild arenas heights floating) {}).bind fun scan =>
    match scan.split, scan.hull with
    | some split, some (left, right) =>
      if scan.above ∧ 0 < min right floating.box.right - max left floating.box.left then some split
      else none
    | _, _ => none

/-- A split found before a member is at an earlier one; a member above the float comes before
it. -/
def SplitScan.Within (scan : SplitScan) (index : ℕ) : Prop :=
  (scan.above → scan.split = none → 0 < index) ∧
    ∀ split, scan.split = some split → split < index ∧ (scan.above → 0 < split)

variable {arenas heights}

theorem SplitScan.Within.step {floating : ItemPlacement} {scan scan' : SplitScan}
    {child : RefItem} {index : ℕ} (h : scan.Within index)
    (hstep : scanChild arenas heights floating scan (child, index) = some scan') :
  scan'.Within (index + 1)
  := by
  obtain ⟨habove, hsplit⟩ := h
  simp only [scanChild] at hstep
  split at hstep
  · simp at hstep
  split at hstep
  · obtain rfl := some.inj hstep
    exact ⟨fun _ _ => Nat.succ_pos index, fun split h =>
      ⟨(hsplit split h).1.trans index.lt_succ_self, (hsplit split h).2⟩⟩
  split at hstep
  · simp at hstep
  split at hstep
  case isTrue hsome =>
    obtain rfl := some.inj hstep
    exact ⟨fun _ _ => Nat.succ_pos index, fun split h =>
      ⟨(hsplit split h).1.trans index.lt_succ_self, (hsplit split h).2⟩⟩
  case isFalse hnone =>
    have hnone : scan.split = none := by simpa using hnone
    split at hstep
    · obtain rfl := some.inj hstep
      refine ⟨fun _ _ => Nat.succ_pos index, fun split h => ?_⟩
      obtain rfl : index = split := by simpa using h
      exact ⟨index.lt_succ_self, fun ha => habove ha hnone⟩
    · obtain rfl := some.inj hstep
      refine ⟨fun _ _ => Nat.succ_pos index, fun split h => ?_⟩
      simp [SplitScan.reach, hnone] at h

theorem SplitScan.Within.run {floating : ItemPlacement} {children : List RefItem} {index : ℕ}
    {scan scan' : SplitScan} (h : scan.Within index)
    (hrun : (children.zipIdx index).foldlM (scanChild arenas heights floating) scan = some scan') :
  scan'.Within (index + children.length)
  := by
  induction children generalizing index scan with
  | nil =>
    obtain rfl : scan = scan' := by simpa using hrun
    exact h
  | cons child children ih =>
    rw [zipIdx_cons, foldlM_cons] at hrun
    obtain ⟨next, hnext, hrest⟩ := bind_eq_some_iff.mp hrun
    have hwithin := ih (h.step hnext) hrest
    rwa [length_cons, Nat.add_comm children.length, ← Nat.add_assoc]

/-- Both parts of a group that is split have members. -/
theorem splitPosition_bounds {group : GroupItem} {floating : ItemPlacement} {split : ℕ}
    (h : splitPosition arenas heights group floating = some split) :
  0 < split ∧ split < group.children.length
  := by
  obtain ⟨scan, hrun, hscan⟩ := bind_eq_some_iff.mp h
  have hwithin : scan.Within group.children.length := by
    have hstart : SplitScan.Within {} 0 := by simp [SplitScan.Within]
    simpa using hstart.run hrun
  split at hscan
  case h_1 hsplit _ =>
    split at hscan
    case isTrue habove =>
      obtain rfl := some.inj hscan
      exact ⟨(hwithin.2 _ hsplit).2 habove.1, (hwithin.2 _ hsplit).1⟩
    case isFalse => simp at hscan
  case h_2 => simp at hscan

end

/-! ### Splitting -/

/-- The parent of a text item with a base. -/
def BaseTextItem.setParent (ref : String) : BaseTextItem → BaseTextItem
  | .based kind base => .based kind (some { base.getD {} with parent := some ⟨ref⟩ })
  | item => item

/-- `split_group`. -/
def splitGroup (document : Document) (bodyPosition : ℕ) (group : ℕ) (item : GroupItem)
    (split : ℕ) : Document :=
  let newRef := slotRef kGroups document.groups.length
  let moved := item.children.drop split
  { document with
    texts := moved.foldl (fun texts child =>
      match arenaIndex child.ref kTexts with
      | some text => texts.modify text (BaseTextItem.setParent newRef)
      | none => texts) document.texts
    groups := document.groups.modify group (fun head =>
        { head with children := item.children.take split }) ++
      [{ item with selfRef := newRef, children := moved }]
    body := some { document.body.getD {} with
      children := document.children.insertIdx (bodyPosition + 1) ⟨newRef⟩ } }

/-- What is split around a float: the group, where the body lists it, and where it is split. -/
structure Split where
  bodyPosition : ℕ
  group : ℕ
  item : GroupItem
  split : ℕ

section

variable (heights : PageHeights)

/-- The split that a float asks for at a child of the body. -/
def splitAt (document : Document) (floating : ItemPlacement) (entry : RefItem × ℕ) :
    Option Split :=
  (arenaIndex entry.1.ref kGroups).bind fun group =>
    document.groups[group]?.bind fun item =>
      (splitPosition document.toArenas heights item floating).map fun split =>
        ⟨entry.2, group, item, split⟩

/-- The first split that a float of the body asks for. -/
def findSplit (document : Document) : Option Split :=
  document.children.findSome? fun child =>
    if isFloatLabel (document.itemLabel child.ref) then
      (document.itemPlacement heights child.ref).bind fun floating =>
        document.children.zipIdx.findSome? (splitAt heights document floating)
    else none

/-- The joints between the members of groups. -/
def joints (groups : List GroupItem) : ℕ :=
  (groups.map fun group => group.children.length - 1).sum

variable {heights}

theorem findSplit_spec {document : Document} {split : Split}
    (h : findSplit heights document = some split) :
  document.groups[split.group]? = some split.item ∧ 0 < split.split ∧
    split.split < split.item.children.length
  := by
  obtain ⟨child, -, hchild⟩ := exists_of_findSome?_eq_some h
  split at hchild
  case isFalse => simp at hchild
  case isTrue =>
    obtain ⟨floating, -, hfloating⟩ := bind_eq_some_iff.mp hchild
    obtain ⟨entry, -, hentry⟩ := exists_of_findSome?_eq_some hfloating
    obtain ⟨group, -, hgroup⟩ := bind_eq_some_iff.mp hentry
    obtain ⟨item, hitem, hmap⟩ := bind_eq_some_iff.mp hgroup
    obtain ⟨position, hposition, rfl⟩ := map_eq_some_iff.mp hmap
    exact ⟨hitem, splitPosition_bounds hposition⟩

/-- A split takes a joint away. -/
theorem joints_splitGroup_lt {document : Document} {split : Split}
    (h : findSplit heights document = some split) :
  joints (splitGroup document split.bodyPosition split.group split.item split.split).groups <
    joints document.groups
  := by
  obtain ⟨hitem, hpos, hlt⟩ := findSplit_spec h
  have hsum := sum_map_modify (fun group : GroupItem => group.children.length - 1)
    (fun head => { head with children := split.item.children.take split.split }) hitem
  simp [joints, splitGroup] at hsum ⊢
  omega

variable (heights)

/-- `split_groups_around_floats`, with the number of splits. -/
def splitGroupsAroundFloats (document : Document) : Document × ℕ :=
  match _h : findSplit heights document with
  | none => (document, 0)
  | some split =>
    let (result, splits) := splitGroupsAroundFloats
      (splitGroup document split.bodyPosition split.group split.item split.split)
    (result, splits + 1)
termination_by joints document.groups
decreasing_by exact joints_splitGroup_lt _h

/-- Afterwards no float asks for a split. -/
theorem findSplit_splitGroupsAroundFloats (document : Document) :
  findSplit heights (splitGroupsAroundFloats heights document).1 = none
  := by
  fun_induction splitGroupsAroundFloats heights document with
  | case1 document h => exact h
  | case2 document split h result splits heq ih => rwa [heq] at ih

/-- A document in which no float asks for a split stays as it is. -/
theorem splitGroupsAroundFloats_of_none {document : Document}
    (h : findSplit heights document = none) :
  splitGroupsAroundFloats heights document = (document, 0)
  := by
  rw [splitGroupsAroundFloats]
  split
  case h_1 => rfl
  case h_2 split heq => simp [h] at heq

end

/-! ### What a split leaves as it is -/

@[simp]
theorem prov_setParent (ref : String) (item : BaseTextItem) :
  (item.setParent ref).prov = item.prov
  := by
  cases item <;> rfl

@[simp]
theorem source_setParent (ref : String) (item : BaseTextItem) :
  (item.setParent ref).source = item.source
  := by
  cases item <;> rfl

/-- What is read off text items without their parents. -/
theorem map_texts_splitGroup {α : Type} {f : BaseTextItem → α}
    (hf : ∀ ref item, f (BaseTextItem.setParent ref item) = f item) (document : Document)
    (bodyPosition group : ℕ) (item : GroupItem) (split : ℕ) :
  (splitGroup document bodyPosition group item split).texts.map f = document.texts.map f
  := by
  simp only [splitGroup]
  generalize document.texts = texts
  induction item.children.drop split generalizing texts with
  | nil => rfl
  | cons child children ih =>
    rw [foldl_cons, ih]
    cases arenaIndex child.ref kTexts with
    | none => rfl
    | some text => exact map_modify_of_comp (hf _) texts text

section

variable (document : Document) (bodyPosition group : ℕ) (item : GroupItem) (split : ℕ)

theorem documentPageHeights_splitGroup :
  documentPageHeights (splitGroup document bodyPosition group item split) =
    documentPageHeights document
  := by
  have htexts := map_texts_splitGroup (f := BaseTextItem.prov) prov_setParent document bodyPosition group item split
  have hprovs : (splitGroup document bodyPosition group item split).provs = document.provs := by
    simp only [Arenas.provs, flatMap_def, htexts]
    rfl
  funext page
  simp only [documentPageHeights, hprovs]
  rfl

theorem collectors_splitGroup :
  (splitGroup document bodyPosition group item split).collectors = document.collectors
  := by
  have htexts := map_texts_splitGroup (f := BaseTextItem.source) source_setParent document bodyPosition group item split
  simp only [Arenas.collectors, flatMap_def, htexts]
  rfl

end

theorem documentPageHeights_splitGroupsAroundFloats (heights : PageHeights) (document : Document) :
  documentPageHeights (splitGroupsAroundFloats heights document).1 =
    documentPageHeights document
  := by
  fun_induction splitGroupsAroundFloats heights document with
  | case1 => rfl
  | case2 document split h result splits heq ih =>
    rw [heq] at ih
    exact ih.trans (documentPageHeights_splitGroup ..)

theorem collectors_splitGroupsAroundFloats (heights : PageHeights) (document : Document) :
  (splitGroupsAroundFloats heights document).1.collectors = document.collectors
  := by
  fun_induction splitGroupsAroundFloats heights document with
  | case1 => rfl
  | case2 document split h result splits heq ih =>
    rw [heq] at ih
    exact ih.trans (collectors_splitGroup ..)

/-- Whether a float asks for a split does not depend on the order of the body. -/
theorem findSplit_eq_none_of_perm {document document' : Document} {heights : PageHeights}
    (harenas : document'.toArenas = document.toArenas)
    (hchildren : document'.children.Perm document.children)
    (h : findSplit heights document = none) :
  findSplit heights document' = none
  := by
  have hnone : ∀ (floating : ItemPlacement) (candidate : RefItem) (position position' : ℕ),
      splitAt heights document floating (candidate, position) = none →
      splitAt heights document' floating (candidate, position') = none := by
    intro floating candidate position position' hnone
    simpa [splitAt, harenas] using hnone
  simp only [findSplit, findSome?_eq_none_iff] at h ⊢
  intro child hchild
  have hfloat := h child (hchildren.mem_iff.mp hchild)
  rw [harenas]
  split at hfloat
  case isFalse hlabel => rw [if_neg hlabel]
  case isTrue hlabel =>
    rw [if_pos hlabel, bind_eq_none_iff]
    rw [bind_eq_none_iff] at hfloat
    intro floating hfloating
    have hall := findSome?_eq_none_iff.mp (hfloat floating hfloating)
    apply findSome?_eq_none_iff.mpr
    rintro ⟨candidate, position⟩ hentry
    have hmem := hchildren.mem_iff.mp (fst_mem_of_mem_zipIdx hentry)
    obtain ⟨position', hlt, rfl⟩ := getElem_of_mem hmem
    apply hnone floating _ position'
    exact hall _ (by simp [mem_zipIdx_iff_getElem?, hlt])

end GRParse.Layout
