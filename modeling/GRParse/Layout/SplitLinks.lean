import GRParse.Layout.GroupSplit

/-!
# The tree that splitting groups leaves

The groups that come of splitting are pieces of the old ones: the pieces of a group hold its
members in order, and none is empty.  A split hands the members that it moves over to the new
group, but a code item, which has no base, keeps the group it came from as its parent.  Links
between groups and texts that agree therefore go on to agree exactly when no split moves a code
item, nor a text that the group it is moved from lists once more.
-/

namespace GRParse.Layout

open Lists List Option

/-! ### Pieces -/

/-- The members of the group in a slot. -/
def childrenAt (groups : List GroupItem) (index : ℕ) : List RefItem :=
  (groups[index]?.map GroupItem.children).getD []

/-- Groups have come of old ones: each is a piece of one old group, which is its own first piece.
The pieces of a group hold its members in order, and if there are several, none is empty. -/
structure PiecesOf (groups result : List GroupItem) (pieces : ℕ → List ℕ) : Prop where
  partition : ((List.range groups.length).flatMap pieces).Perm (List.range result.length)
  first : ∀ index < groups.length, (pieces index).head? = some index
  children : ∀ index < groups.length,
    (pieces index).flatMap (childrenAt result) = childrenAt groups index
  nonempty : ∀ index < groups.length,
    pieces index = [index] ∨ ∀ piece ∈ pieces index, childrenAt result piece ≠ []

namespace PiecesOf

variable {groups middle result : List GroupItem} {pieces pieces' : ℕ → List ℕ}

theorem refl (groups : List GroupItem) :
  PiecesOf groups groups fun index => [index]
  := by
  constructor
  case partition =>
    rw [flatMap_singleton']
  case first => exact fun _ _ => rfl
  case children => exact fun _ _ => flatMap_singleton ..
  case nonempty => exact fun _ _ => .inl rfl

/-- A piece is a group. -/
theorem lt_length (h : PiecesOf groups result pieces) {index piece : ℕ}
    (hindex : index < groups.length) (hpiece : piece ∈ pieces index) :
  piece < result.length
  := by
  rw [← mem_range, ← h.partition.mem_iff]
  exact mem_flatMap.mpr ⟨index, mem_range.mpr hindex, hpiece⟩

/-- The pieces of pieces. -/
theorem trans (h : PiecesOf groups middle pieces) (h' : PiecesOf middle result pieces') :
  PiecesOf groups result fun index => (pieces index).flatMap pieces'
  := by
  constructor
  case partition =>
    rw [← flatMap_assoc]
    exact (h.partition.flatMap_right _).trans h'.partition
  case first =>
    intro index hindex
    have hfirst := h.first index hindex
    obtain ⟨rest, hrest⟩ := head?_eq_some_iff.mp hfirst
    have hlt := h.lt_length hindex (mem_of_mem_head? hfirst)
    obtain ⟨rest', hrest'⟩ := head?_eq_some_iff.mp (h'.first index hlt)
    rw [hrest, flatMap_cons, hrest']
    rfl
  case children =>
    intro index hindex
    rw [flatMap_assoc, ← h.children index hindex]
    apply flatMap_congr
    intro piece hpiece
    exact h'.children piece (h.lt_length hindex hpiece)
  case nonempty =>
    intro index hindex
    rcases h.nonempty index hindex with hwhole | hall
    · have hlt : index < middle.length := by
        apply h.lt_length hindex
        rw [hwhole]
        exact mem_singleton_self index
      rw [hwhole, flatMap_singleton]
      exact h'.nonempty index hlt
    · refine .inr fun piece hpiece => ?_
      obtain ⟨whole, hwhole, hpart⟩ := mem_flatMap.mp hpiece
      have hlt := h.lt_length hindex hwhole
      rcases h'.nonempty whole hlt with hsame | hparts
      · have hchildren := h'.children whole hlt
        rw [hsame, flatMap_singleton] at hchildren
        rw [hsame] at hpart
        rw [mem_singleton.mp hpart, hchildren]
        exact hall whole hwhole
      · exact hparts piece hpart

end PiecesOf

/-! ### One split -/

section

variable {document : Document} {bodyPosition group split : ℕ} {item : GroupItem}

theorem length_groups_splitGroup :
  (splitGroup document bodyPosition group item split).groups.length = document.groups.length + 1
  := by
  simp [splitGroup]

theorem childrenAt_of_length_le {groups : List GroupItem} {index : ℕ} (h : groups.length ≤ index) :
  childrenAt groups index = []
  := by
  rw [childrenAt, getElem?_eq_none h]
  rfl

variable (hitem : document.groups[group]? = some item)
include hitem

theorem childrenAt_of_item :
  childrenAt document.groups group = item.children
  := by
  rw [childrenAt, hitem]
  rfl

omit hitem in
/-- The members of the new group. -/
theorem childrenAt_tail :
  childrenAt (splitGroup document bodyPosition group item split).groups document.groups.length =
    item.children.drop split
  := by
  simp [childrenAt, splitGroup]

/-- The members of the group that was split. -/
theorem childrenAt_head :
  childrenAt (splitGroup document bodyPosition group item split).groups group =
    item.children.take split
  := by
  have hlt : group < document.groups.length := (List.getElem?_eq_some_iff.mp hitem).1
  rw [childrenAt, splitGroup, List.getElem?_append_left (by simpa using hlt)]
  simp [hitem]

omit hitem in
/-- The members of the other groups. -/
theorem childrenAt_other {index : ℕ} (hindex : index ≠ document.groups.length)
    (hother : index ≠ group) :
  childrenAt (splitGroup document bodyPosition group item split).groups index =
    childrenAt document.groups index
  := by
  rcases Nat.lt_or_ge index document.groups.length with hlt | hge
  · rw [childrenAt, splitGroup, getElem?_append_left (by simpa using hlt),
      getElem?_modify, childrenAt]
    simp [hother.symm]
  · rw [childrenAt_of_length_le hge, childrenAt_of_length_le]
    rw [length_groups_splitGroup]
    omega

/-- A group that is split between two members has two pieces, and any other one is whole. -/
theorem piecesOf_splitGroup (hpos : 0 < split) (hlt : split < item.children.length) :
  PiecesOf document.groups (splitGroup document bodyPosition group item split).groups fun index =>
    index :: if index = group then [document.groups.length] else []
  := by
  have hgroup : group < document.groups.length := (List.getElem?_eq_some_iff.mp hitem).1
  have hhead := @childrenAt_head document bodyPosition group split item hitem
  have htail := @childrenAt_tail document bodyPosition group split item
  constructor
  case partition =>
    rw [length_groups_splitGroup, List.range_succ]
    have hmove := List.flatMap_append_perm (List.range document.groups.length) (fun index => [index])
      fun index => if index = group then [document.groups.length] else []
    rw [List.flatMap_singleton', flatMap_pick List.nodup_range (List.mem_range.mpr hgroup)] at hmove
    exact hmove.symm
  case first => exact fun _ _ => rfl
  case children =>
    intro index hindex
    rw [List.flatMap_cons]
    split
    case isTrue heq =>
      rw [heq, hhead, List.flatMap_singleton, htail, List.take_append_drop,
        childrenAt_of_item hitem]
    case isFalse hne =>
      rw [List.flatMap_nil, List.append_nil, childrenAt_other hindex.ne hne]
  case nonempty =>
    intro index hindex
    split
    case isFalse => exact .inl rfl
    case isTrue heq =>
      refine .inr fun piece hpiece => ?_
      rw [List.mem_pair] at hpiece
      rcases hpiece with rfl | rfl
      · rw [heq, hhead]
        apply List.ne_nil_of_length_pos
        rw [List.length_take]
        omega
      · rw [htail]
        apply List.ne_nil_of_length_pos
        rw [List.length_drop]
        omega

end

/-! ### Links -/

/-- The parent of a text item, in its base or inline. -/
def BaseTextItem.parent (item : BaseTextItem) : Option RefItem :=
  item.fields.bind TextItemBase.parent

/-- Some references name the text in a slot. -/
def NamesText (children : List RefItem) (text : ℕ) : Prop :=
  ∃ child ∈ children, arenaIndex child.ref kTexts = some text

instance (children : List RefItem) (text : ℕ) : Decidable (NamesText children text) :=
  inferInstanceAs (Decidable (∃ child ∈ children, arenaIndex child.ref kTexts = some text))

theorem namesText_cons {child : RefItem} {children : List RefItem} {text : ℕ} :
  NamesText (child :: children) text ↔
    arenaIndex child.ref kTexts = some text ∨ NamesText children text
  := by
  simp [NamesText]

theorem namesText_append {children children' : List RefItem} {text : ℕ} :
  NamesText (children ++ children') text ↔ NamesText children text ∨ NamesText children' text
  := by
  simp [NamesText, or_and_right, exists_or]

/-- Each text that a group lists names that group as its parent. -/
def LinksAgree (document : Document) : Prop :=
  ∀ group text item, NamesText (childrenAt document.groups group) text →
    document.texts[text]? = some item → item.parent = some ⟨slotRef kGroups group⟩

/-- Two groups list one text, or a code item has a group before the one that lists it as its
parent. -/
def Broken (document : Document) : Prop :=
  ∃ group other text item, group < other ∧ document.texts[text]? = some item ∧
    NamesText (childrenAt document.groups other) text ∧
    (NamesText (childrenAt document.groups group) text ∨
      ∃ code, item = .code code ∧ code.parent = some ⟨slotRef kGroups group⟩)

variable {document : Document}

theorem Broken.not_linksAgree (h : Broken document) :
  ¬ LinksAgree document
  := by
  obtain ⟨group, other, text, item, hlt, hitem, hother, hgroup⟩ := h
  intro hagree
  have hparent := hagree other text item hother hitem
  have hsame : item.parent = some ⟨slotRef kGroups group⟩ := by
    rcases hgroup with hgroup | ⟨code, rfl, hcode⟩
    · exact hagree group text item hgroup hitem
    · exact hcode
  rw [hparent] at hsame
  have heq : slotRef kGroups other = slotRef kGroups group :=
    congrArg RefItem.ref (some.inj hsame)
  exact hlt.ne' (slotRef_injective _ heq)

/-- A split moves no code item, and no text that the group it is moved from lists once more. -/
def Split.KeepsLinks (split : Split) (document : Document) : Prop :=
  ∀ text item, NamesText (split.item.children.drop split.split) text →
    document.texts[text]? = some item →
    (∀ code, item ≠ .code code) ∧ ¬ NamesText (split.item.children.take split.split) text

theorem parent_setParent_based (ref : String) (kind : BasedKind) (base : Option TextItemBase) :
  (BaseTextItem.setParent ref (.based kind base)).parent = some ⟨ref⟩
  := rfl

theorem setParent_setParent (ref : String) (item : BaseTextItem) :
  (item.setParent ref).setParent ref = item.setParent ref
  := by
  cases item <;> rfl

/-- Texts that are handed over to a group. -/
theorem getElem?_handOver (ref : String) (children : List RefItem) (texts : List BaseTextItem)
    (text : ℕ) :
  (children.foldl (fun texts child =>
      match arenaIndex child.ref kTexts with
      | some text => texts.modify text (BaseTextItem.setParent ref)
      | none => texts) texts)[text]? =
    texts[text]?.map fun item => if NamesText children text then item.setParent ref else item
  := by
  induction children generalizing texts with
  | nil => simp [NamesText]
  | cons child children ih =>
    rw [foldl_cons, ih]
    simp only [namesText_cons]
    cases hchild : arenaIndex child.ref kTexts with
    | none => simp
    | some index =>
      rw [getElem?_modify]
      cases texts[text]? with
      | none => rfl
      | some item =>
        by_cases hsame : index = text
        · simp [hsame, setParent_setParent]
        · simp [hsame]

section

variable {document : Document} {bodyPosition group split : ℕ} {item : GroupItem}

theorem getElem?_texts_splitGroup (text : ℕ) :
  (splitGroup document bodyPosition group item split).texts[text]? =
    document.texts[text]?.map fun entry =>
      if NamesText (item.children.drop split) text then
        entry.setParent (slotRef kGroups document.groups.length)
      else entry
  := getElem?_handOver ..

variable (hitem : document.groups[group]? = some item)
include hitem

/-- A text that a group lists is listed by that group, or by the new one. -/
theorem NamesText.after_split {index text : ℕ} (h : NamesText (childrenAt document.groups index) text) :
  ∃ index', (index' = index ∨ index' = document.groups.length ∧ index = group) ∧
    NamesText (childrenAt (splitGroup document bodyPosition group item split).groups index') text
  := by
  by_cases hindex : index = group
  · rw [hindex, childrenAt_of_item hitem, ← take_append_drop split item.children,
      namesText_append] at h
    rcases h with hhead | htail
    · refine ⟨group, .inl hindex.symm, ?_⟩
      rwa [childrenAt_head hitem]
    · refine ⟨document.groups.length, .inr ⟨rfl, hindex⟩, ?_⟩
      rwa [childrenAt_tail]
  · refine ⟨index, .inl rfl, ?_⟩
    rcases Nat.lt_or_ge index document.groups.length with hlt | hge
    · rwa [childrenAt_other hlt.ne hindex]
    · rw [childrenAt_of_length_le hge] at h
      obtain ⟨child, hchild, -⟩ := h
      exact absurd hchild not_mem_nil

omit hitem in
theorem NamesText.lt_length {index text : ℕ} (h : NamesText (childrenAt document.groups index) text) :
  index < document.groups.length
  := by
  by_contra hge
  rw [childrenAt_of_length_le (Nat.le_of_not_lt hge)] at h
  obtain ⟨child, hchild, -⟩ := h
  exact absurd hchild not_mem_nil

/-- What is broken is not mended by a split. -/
theorem Broken.after_split (h : Broken document) :
  Broken (splitGroup document bodyPosition group item split)
  := by
  obtain ⟨low, high, text, entry, hlt, hentry, hhigh, hlow⟩ := h
  have hnew := hhigh.lt_length
  obtain ⟨high', hhigh', hlists⟩ :=
    @NamesText.after_split document bodyPosition group split item hitem _ _ hhigh
  have hentry' := @getElem?_texts_splitGroup document bodyPosition group split item text
  rw [hentry] at hentry'
  rcases hlow with hlow | ⟨code, rfl, hcode⟩
  · obtain ⟨low', hlow', hlists'⟩ :=
      @NamesText.after_split document bodyPosition group split item hitem _ _ hlow
    rcases hlow' with rfl | ⟨rfl, hsplit⟩
    · exact ⟨low', high', text, _, by omega, hentry', hlists, .inl hlists'⟩
    · obtain rfl : high' = high := by omega
      exact ⟨high', _, text, _, hnew, hentry', hlists', .inl hlists⟩
  · refine ⟨low, high', text, _, by omega, hentry', hlists, .inr ⟨code, ?_, hcode⟩⟩
    split <;> rfl

theorem namesText_of_moved {text : ℕ} (h : NamesText (item.children.drop split) text) :
  NamesText (childrenAt document.groups group) text
  := by
  rw [childrenAt_of_item hitem, ← take_append_drop split item.children, namesText_append]
  exact .inr h

/-- What the groups list after a split they listed before, unless it was moved. -/
theorem namesText_of_not_moved {index text : ℕ} (hmoved : ¬ NamesText (item.children.drop split) text)
    (h : NamesText
      (childrenAt (splitGroup document bodyPosition group item split).groups index) text) :
  NamesText (childrenAt document.groups index) text
  := by
  by_cases hlast : index = document.groups.length
  · rw [hlast, childrenAt_tail] at h
    exact absurd h hmoved
  by_cases hindex : index = group
  · rw [hindex, childrenAt_head hitem] at h
    rw [hindex, childrenAt_of_item hitem, ← take_append_drop split item.children,
      namesText_append]
    exact .inl h
  · rwa [childrenAt_other hlast hindex] at h

/-- Links go on to agree when the split keeps them. -/
theorem LinksAgree.after_split (hagree : LinksAgree document)
    (hkeeps : Split.KeepsLinks ⟨bodyPosition, group, item, split⟩ document) :
  LinksAgree (splitGroup document bodyPosition group item split)
  := by
  intro index text entry' hnames hentry'
  rw [getElem?_texts_splitGroup] at hentry'
  obtain ⟨entry, hentry, rfl⟩ := map_eq_some_iff.mp hentry'
  by_cases hmoved : NamesText (item.children.drop split) text
  · have hparent := hagree group text entry (namesText_of_moved hitem hmoved) hentry
    obtain ⟨hbased, hhead⟩ := hkeeps text entry hmoved hentry
    have hlast : index = document.groups.length := by
      by_contra hlast
      by_cases hindex : index = group
      · rw [hindex, childrenAt_head hitem] at hnames
        exact hhead hnames
      · rw [childrenAt_other hlast hindex] at hnames
        have hother := hagree index text entry hnames hentry
        rw [hparent] at hother
        have heq : slotRef kGroups group = slotRef kGroups index :=
          congrArg RefItem.ref (some.inj hother)
        exact hindex (slotRef_injective _ heq).symm
    rw [if_pos hmoved, hlast]
    cases entry with
    | notSet => cases hparent
    | based kind base => exact parent_setParent_based ..
    | code code => exact absurd rfl (hbased code)
  · rw [if_neg hmoved]
    exact hagree index text entry (namesText_of_not_moved hitem hmoved hnames) hentry

/-- Links are broken when the split does not keep them. -/
theorem LinksAgree.broken_after_split (hagree : LinksAgree document)
    (hbreaks : ¬ Split.KeepsLinks ⟨bodyPosition, group, item, split⟩ document) :
  Broken (splitGroup document bodyPosition group item split)
  := by
  simp only [Split.KeepsLinks, not_forall] at hbreaks
  obtain ⟨text, entry, hmoved, hentry, hbreaks⟩ := hbreaks
  have hgroup := namesText_of_moved hitem hmoved
  have hentry' := @getElem?_texts_splitGroup document bodyPosition group split item text
  rw [hentry] at hentry'
  have htail : NamesText (childrenAt (splitGroup document bodyPosition group item split).groups
      document.groups.length) text := by
    rwa [childrenAt_tail]
  refine ⟨group, _, text, _, hgroup.lt_length, hentry', htail, ?_⟩
  by_cases hcode : ∃ code, entry = .code code
  · obtain ⟨code, rfl⟩ := hcode
    refine .inr ⟨code, ?_, hagree group text _ hgroup hentry⟩
    split <;> rfl
  · left
    rw [childrenAt_head hitem]
    by_contra hhead
    exact hbreaks ⟨fun code heq => hcode ⟨code, heq⟩, hhead⟩

end

/-! ### All splits -/

variable {heights : PageHeights}

/-- The next split is made. -/
def SplitStep (heights : PageHeights) (document document' : Document) : Prop :=
  ∃ split, findSplit heights document = some split ∧
    document' = splitGroup document split.bodyPosition split.group split.item split.split

/-- All splits that are made keep the links. -/
def SplitsKeepLinks (heights : PageHeights) (document : Document) : Prop :=
  ∀ reached split, Relation.ReflTransGen (SplitStep heights) document reached →
    findSplit heights reached = some split → split.KeepsLinks reached

theorem splitsKeepLinks_of_none (h : findSplit heights document = none) :
  SplitsKeepLinks heights document
  := by
  intro reached split hreached hsplit
  cases hreached.cases_head with
  | inl heq =>
    rw [← heq, h] at hsplit
    cases hsplit
  | inr hstep =>
    obtain ⟨next, ⟨first, hfirst, -⟩, -⟩ := hstep
    rw [h] at hfirst
    cases hfirst

theorem splitsKeepLinks_of_some {split : Split} (h : findSplit heights document = some split) :
  SplitsKeepLinks heights document ↔ split.KeepsLinks document ∧ SplitsKeepLinks heights
    (splitGroup document split.bodyPosition split.group split.item split.split)
  := by
  constructor
  · intro hall
    refine ⟨hall document split .refl h, fun reached other hreached hother => ?_⟩
    exact hall reached other (.head ⟨split, h, rfl⟩ hreached) hother
  · rintro ⟨hfirst, hrest⟩ reached other hreached hother
    cases hreached.cases_head with
    | inl heq =>
      subst heq
      rw [h] at hother
      rwa [← some.inj hother]
    | inr hstep =>
      obtain ⟨next, ⟨split', hsplit', rfl⟩, hreached⟩ := hstep
      rw [h] at hsplit'
      obtain rfl := some.inj hsplit'
      exact hrest reached other hreached hother

theorem broken_splitGroupsAroundFloats {document : Document} (h : Broken document) :
  Broken (splitGroupsAroundFloats heights document).1
  := by
  fun_induction splitGroupsAroundFloats heights document with
  | case1 => exact h
  | case2 document split hsplit result splits heq ih =>
    rw [heq] at ih
    exact ih (h.after_split (findSplit_spec hsplit).1)

theorem linksAgree_iff (hagree : LinksAgree document) :
  LinksAgree (splitGroupsAroundFloats heights document).1 ↔ SplitsKeepLinks heights document
  := by
  fun_induction splitGroupsAroundFloats heights document with
  | case1 document h => exact iff_of_true hagree (splitsKeepLinks_of_none h)
  | case2 document split hsplit result splits heq ih =>
    rw [heq] at ih
    obtain ⟨hitem, -⟩ := findSplit_spec hsplit
    rw [splitsKeepLinks_of_some hsplit]
    by_cases hkeeps : split.KeepsLinks document
    · rw [ih (hagree.after_split hitem hkeeps)]
      exact ⟨fun hrest => ⟨hkeeps, hrest⟩, fun h => h.2⟩
    · have hbroken := @broken_splitGroupsAroundFloats heights _
        (@LinksAgree.broken_after_split document split.bodyPosition split.group split.split
          split.item hitem hagree hkeeps)
      rw [heq] at hbroken
      exact iff_of_false hbroken.not_linksAgree fun h => hkeeps h.1

theorem exists_piecesOf (heights : PageHeights) (document : Document) :
  ∃ pieces, PiecesOf document.groups (splitGroupsAroundFloats heights document).1.groups pieces
  := by
  fun_induction splitGroupsAroundFloats heights document with
  | case1 document h => exact ⟨_, PiecesOf.refl _⟩
  | case2 document split hsplit result splits heq ih =>
    rw [heq] at ih
    obtain ⟨pieces, hpieces⟩ := ih
    obtain ⟨hitem, hpos, hlt⟩ := findSplit_spec hsplit
    exact ⟨_, (piecesOf_splitGroup hitem hpos hlt).trans hpieces⟩

/-- There are no more splits than joints. -/
theorem splits_le_joints (heights : PageHeights) (document : Document) :
  (splitGroupsAroundFloats heights document).2 ≤ joints document.groups
  := by
  fun_induction splitGroupsAroundFloats heights document with
  | case1 => exact Nat.zero_le _
  | case2 document split hsplit result splits heq ih =>
    rw [heq] at ih
    exact Nat.lt_of_le_of_lt ih (joints_splitGroup_lt hsplit)

/-- A table between the two members of a list. -/
def listAroundTable (second : TextItemBase → BaseTextItem) : Document :=
  let box (top : ℚ) : List ProvenanceItem :=
    [{ pageNo := 1, bbox := some { l := 0, t := top, r := 10, b := top + 10 } }]
  { texts := [.based .listItem (some { parent := some ⟨"#/groups/0"⟩, prov := box 10 }),
      second { parent := some ⟨"#/groups/0"⟩, prov := box 50 }]
    tables := [{ prov := box 30 }]
    groups := [{
      selfRef := "#/groups/0"
      parent := some ⟨"#/body"⟩
      children := [⟨"#/texts/0"⟩, ⟨"#/texts/1"⟩] }]
    body := some { children := [⟨"#/groups/0"⟩, ⟨"#/tables/0"⟩] } }

theorem linksAgree_listAroundTable {second : TextItemBase → BaseTextItem}
    (hsecond : ∀ base, (second base).parent = base.parent) :
  LinksAgree (listAroundTable second)
  := by
  intro group text item hnames hitem
  match group with
  | group + 1 => exact absurd hnames.choose_spec.1 not_mem_nil
  | 0 =>
    match text with
    | 0 =>
      obtain rfl := some.inj hitem
      decide
    | 1 =>
      obtain rfl := some.inj hitem
      rw [hsecond]
      decide
    | text + 2 => cases hitem

end GRParse.Layout
