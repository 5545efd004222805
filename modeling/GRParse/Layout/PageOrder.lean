import GRParse.Layout.Chains
import GRParse.Layout.GroupSplit

/-!
# The reading order of a page

The chains of a page are read by the XY-cut, captions bound to the float they label right
behind it, then footnotes, then headers and footers.  A caption binds to the nearest float,
and among floats at one distance to the first of the body.  The order decides which one that
is, so ordering a page a second time may bind a caption to another float;
`orderPage_orderPage_iff` says when it does not.
-/

namespace GRParse.Layout

open Lists List Chain

section

variable {ι κ : Type}

/-! ### Captions and floats -/

/-- The box of a placed chain. -/
def Chain.box (chain : Chain ι) : TopDownBox :=
  match chain.placement with
  | some placement => placement.box
  | none => ⟨0, 0, 0, 0, le_rfl, le_rfl⟩

/-- `order_box`. -/
def orderBox (chain : Chain ι) : OrderBox where
  left := chain.box.left
  top := chain.box.top
  right := chain.box.right
  bottom := chain.box.bottom
  left_le := chain.box.left_le
  top_le := chain.box.top_le

def kItemCutPolicy : CutPolicy :=
  { bandOverGutter := 2, gutterSideShare := 1 / 2 }

/-- `cut_order`: the chains in the order of the cut. -/
def cutOrder (members : List (Chain ι)) : List (Chain ι) :=
  (xyCutOrder kItemCutPolicy (members.map fun chain => some (orderBox chain))).filterMap
    (members[·]?)

def kCaptionOverlapShare : ℚ := 3 / 10

def kCaptionGapHeights : ℚ := 3 / 2

/-- How far a caption is from a float it may label: they overlap sideways, and the gap
between them is small. -/
def captionGap (box target : TopDownBox) : Option ℚ :=
  let overlap := min box.right target.right - max box.left target.left
  if overlap < kCaptionOverlapShare * box.width then none
  else
    let gap :=
      if target.bottom ≤ box.top then box.top - target.bottom
      else if box.bottom ≤ target.top then target.top - box.bottom
      else 0
    if kCaptionGapHeights * box.height < gap then none else some gap

/-- A float is taken for the caption when none before it is as near. -/
def nearerFloat (box : TopDownBox) (best : Option (Chain ι × ℚ)) (float : Chain ι) :
    Option (Chain ι × ℚ) :=
  match captionGap box float.box with
  | none => best
  | some gap => if best.all (gap < ·.2) then some (float, gap) else best

/-- `caption_target`: the float that a caption labels. -/
def captionTarget (caption : Chain ι) (floats : List (Chain ι)) : Option (Chain ι) :=
  if caption.box.width ≤ 0 ∨ caption.box.height ≤ 0 then none
  else (floats.foldl (nearerFloat caption.box) none).map Prod.fst

/-! ### The parts of a page -/

def furnitureOf (members : List (Chain ι)) : List (Chain ι) :=
  members.filter fun chain => isFurnitureLabel chain.label

def footnotesOf (members : List (Chain ι)) : List (Chain ι) :=
  members.filter fun chain => chain.label = .footnote

def captionsOf (members : List (Chain ι)) : List (Chain ι) :=
  members.filter fun chain => chain.label = .caption

/-- The chain is of the main text. -/
def Chain.inFlow (chain : Chain ι) : Bool :=
  !isFurnitureLabel chain.label && chain.label ≠ .footnote && chain.label ≠ .caption

def flowOf (members : List (Chain ι)) : List (Chain ι) :=
  members.filter Chain.inFlow

def floatsOf (members : List (Chain ι)) : List (Chain ι) :=
  (flowOf members).filter fun chain => isFloatLabel chain.label

/-- The main text, and behind it the captions that label nothing. -/
def mainOf (members : List (Chain ι)) : List (Chain ι) :=
  flowOf members ++
    (captionsOf members).filter fun caption => (captionTarget caption (floatsOf members)).isNone

/-- The captions that label a float. -/
def followersOf [DecidableEq ι] (members : List (Chain ι)) (float : Chain ι) : List (Chain ι) :=
  (captionsOf members).filter fun caption =>
    captionTarget caption (floatsOf members) = some float

/-- `order_page`. -/
def orderPage [DecidableEq ι] (members : List (Chain ι)) : List (Chain ι) :=
  ((cutOrder (mainOf members)).flatMap fun chain => chain :: followersOf members chain) ++
    cutOrder (footnotesOf members) ++ cutOrder (furnitureOf members)

/-! ### The cut of chains -/

theorem cutOrder_eq (members : List (Chain ι)) :
  cutOrder members = orderMembers kItemCutPolicy orderBox members
  := filterMap_xyCutOrder kItemCutPolicy orderBox members

theorem cutOrder_perm (members : List (Chain ι)) :
  (cutOrder members).Perm members
  := by
  rw [cutOrder_eq]
  exact orderMembers_perm _ _ members

/-- Chains that start at one point keep their order. -/
theorem filter_cutOrder (members : List (Chain ι)) (corner : ℚ ×ₗ ℚ) :
  (cutOrder members).filter (fun chain => (orderBox chain).corner = corner) =
    members.filter fun chain => (orderBox chain).corner = corner
  := by
  rw [cutOrder_eq, filter_orderMembers]

theorem cutOrder_congr {members members' : List (Chain ι)} (hperm : members.Perm members')
    (h : ∀ corner, members.filter (fun chain => (orderBox chain).corner = corner) =
      members'.filter fun chain => (orderBox chain).corner = corner) :
  cutOrder members = cutOrder members'
  := by
  rw [cutOrder_eq, cutOrder_eq, orderMembers_congr hperm h]

/-- What has been cut is in order. -/
theorem cutOrder_cutOrder (members : List (Chain ι)) :
  cutOrder (cutOrder members) = cutOrder members
  := cutOrder_congr (cutOrder_perm members) (filter_cutOrder members)

/-! ### Targets -/

theorem nearerFloat_spec {box : TopDownBox} {floats : List (Chain ι)}
    {best : Option (Chain ι × ℚ)} :
  (floats.foldl (nearerFloat box) best = none ↔
      best = none ∧ ∀ float ∈ floats, captionGap box float.box = none) ∧
    ∀ found, floats.foldl (nearerFloat box) best = some found →
      best = some found ∨ found.1 ∈ floats
  := by
  induction floats generalizing best with
  | nil => simp
  | cons float floats ih =>
    obtain ⟨hnone, hsome⟩ := @ih (nearerFloat box best float)
    constructor
    · rw [foldl_cons, hnone, forall_mem_cons, ← and_assoc]
      apply and_congr_left'
      unfold nearerFloat
      cases hgap : captionGap box float.box with
      | none => simp
      | some gap => cases best <;> simp; split <;> simp
    · intro found hfound
      rcases hsome found hfound with hbest | hmem
      · unfold nearerFloat at hbest
        split at hbest
        · exact .inl hbest
        · split at hbest
          · obtain rfl := Option.some.inj hbest
            exact .inr (by simp)
          · exact .inl hbest
      · exact .inr (mem_cons_of_mem _ hmem)

theorem captionTarget_mem {caption float : Chain ι} {floats : List (Chain ι)}
    (h : captionTarget caption floats = some float) :
  float ∈ floats
  := by
  unfold captionTarget at h
  split at h
  · simp at h
  · obtain ⟨found, hfound, rfl⟩ := Option.map_eq_some_iff.mp h
    rcases nearerFloat_spec.2 found hfound with hbest | hmem
    · simp at hbest
    · exact hmem

/-- Whether a caption labels a float does not depend on the order of the floats. -/
theorem captionTarget_eq_none_iff (caption : Chain ι) (floats : List (Chain ι)) :
  captionTarget caption floats = none ↔
    (caption.box.width ≤ 0 ∨ caption.box.height ≤ 0) ∨
      ∀ float ∈ floats, captionGap caption.box float.box = none
  := by
  unfold captionTarget
  split
  case isTrue h => simp [h]
  case isFalse h => simp [h, nearerFloat_spec.1]

theorem captionTarget_isNone_perm {floats floats' : List (Chain ι)} (h : floats.Perm floats')
    (caption : Chain ι) :
  (captionTarget caption floats).isNone = (captionTarget caption floats').isNone
  := by
  rw [Bool.eq_iff_iff, Option.isNone_iff_eq_none, Option.isNone_iff_eq_none,
    captionTarget_eq_none_iff, captionTarget_eq_none_iff]
  simp only [h.mem_iff]

/-! ### The parts make up the page -/

theorem parts_perm (members : List (Chain ι)) :
  (flowOf members ++ captionsOf members ++ footnotesOf members ++ furnitureOf members).Perm
    members
  := by
  have hcaptions : (flowOf members ++ captionsOf members).Perm (members.filter fun chain =>
      chain.inFlow || chain.label = .caption) := by
    apply filter_append_filter_perm
    intro chain _ hflow
    simp only [inFlow, Bool.and_eq_true, decide_eq_true_eq] at hflow
    simpa using hflow.2
  have hfootnotes := (hcaptions.append_right (footnotesOf members)).trans <|
    filter_append_filter_perm fun chain _ hflow => by
      simp only [inFlow, Bool.or_eq_true, Bool.and_eq_true, decide_eq_true_eq] at hflow
      rcases hflow with hflow | hcaption
      · simpa using hflow.1.2
      · simp [hcaption]
  have hfurniture := (hfootnotes.append_right (furnitureOf members)).trans <|
    filter_append_filter_perm fun chain _ hflow => by
      simp only [inFlow, Bool.or_eq_true, Bool.and_eq_true, decide_eq_true_eq] at hflow
      rcases hflow with (hflow | hcaption) | hfootnote
      · simpa using hflow.1.1
      · rw [hcaption]
        rfl
      · rw [hfootnote]
        rfl
  refine hfurniture.trans (List.Perm.of_eq (filter_eq_self.mpr fun chain _ => ?_))
  simp only [inFlow]
  cases isFurnitureLabel chain.label with
  | true => simp
  | false =>
    by_cases hfootnote : chain.label = .footnote
    · simp [hfootnote]
    · by_cases hcaption : chain.label = .caption <;> simp [hfootnote, hcaption]

variable {members : List (Chain ι)}

theorem nodup_mainOf (h : members.Nodup) :
  (mainOf members).Nodup
  := by
  have hparts := (parts_perm members).nodup_iff.mpr h
  rw [append_assoc] at hparts
  exact hparts.of_append_left.sublist (filter_sublist.append_left _)

theorem label_of_mem_captionsOf {caption : Chain ι} (h : caption ∈ captionsOf members) :
  caption.label = .caption
  := by
  simpa using (mem_filter.mp h).2

theorem flowOf_mainOf (members : List (Chain ι)) :
  flowOf (mainOf members) = flowOf members
  := by
  have hcaptions : ∀ chain ∈ (captionsOf members).filter fun caption =>
      (captionTarget caption (floatsOf members)).isNone, ¬ chain.inFlow := by
    intro chain hchain
    simp [inFlow, label_of_mem_captionsOf (mem_of_mem_filter hchain)]
  rw [flowOf, mainOf, filter_append, filter_eq_nil_iff.mpr hcaptions, append_nil]
  simp [flowOf]

/-- A caption in the main text labels nothing. -/
theorem captionTarget_of_mem_mainOf {caption : Chain ι} (h : caption ∈ mainOf members)
    (hlabel : caption.label = .caption) :
  captionTarget caption (floatsOf members) = none
  := by
  rcases mem_append.mp h with hflow | hcaption
  · have := (mem_filter.mp hflow).2
    simp [inFlow, hlabel] at this
  · simpa using (mem_filter.mp hcaption).2

theorem captionsOf_mainOf (members : List (Chain ι)) :
  captionsOf (mainOf members) = (captionsOf members).filter fun caption =>
    (captionTarget caption (floatsOf members)).isNone
  := by
  have hflow : ∀ chain ∈ flowOf members, ¬ (chain.label = .caption : Bool) := by
    intro chain hchain
    have := (mem_filter.mp hchain).2
    simp only [inFlow, Bool.and_eq_true] at this
    simpa using this.2
  rw [captionsOf, mainOf, filter_append, filter_eq_nil_iff.mpr hflow, nil_append]
  exact filter_eq_self.mpr fun chain hchain => by
    simpa using label_of_mem_captionsOf (mem_of_mem_filter hchain)

/-- The main text has no chains but those of the flow and captions. -/
theorem mainOf_parts_perm (members : List (Chain ι)) :
  (flowOf (cutOrder (mainOf members)) ++ captionsOf (cutOrder (mainOf members))).Perm
    (mainOf members)
  := by
  have hflow : (flowOf (cutOrder (mainOf members))).Perm (flowOf members) := by
    rw [← flowOf_mainOf members]
    exact (cutOrder_perm _).filter _
  have hcaptions := (cutOrder_perm (mainOf members)).filter fun chain => chain.label = .caption
  refine (hflow.append hcaptions).trans (List.Perm.of_eq ?_)
  change flowOf members ++ captionsOf (mainOf members) = mainOf members
  rw [captionsOf_mainOf, mainOf]

theorem label_of_mem_footnotes {chain : Chain ι} (h : chain ∈ cutOrder (footnotesOf members)) :
  chain.label = .footnote
  := by
  simpa using (mem_filter.mp ((cutOrder_perm _).mem_iff.mp h)).2

theorem label_of_mem_furniture {chain : Chain ι} (h : chain ∈ cutOrder (furnitureOf members)) :
  isFurnitureLabel chain.label
  := by
  simpa using (mem_filter.mp ((cutOrder_perm _).mem_iff.mp h)).2

section

variable [DecidableEq ι] {members : List (Chain ι)}

/-- The order of a page lists its chains, each once. -/
theorem orderPage_perm (h : members.Nodup) :
  (orderPage members).Perm members
  := by
  let bound := (captionsOf members).filter fun caption =>
    (captionTarget caption (floatsOf members)).isSome
  have hmain := cutOrder_perm (mainOf members)
  have hnodup : (cutOrder (mainOf members)).Nodup := hmain.nodup_iff.mpr (nodup_mainOf h)
  have hfollowers : ((cutOrder (mainOf members)).flatMap (followersOf members)).Perm bound := by
    refine (flatMap_filter_perm _ hnodup (captionsOf members)).trans (List.Perm.of_eq ?_)
    apply filter_congr
    intro caption _
    cases htarget : captionTarget caption (floatsOf members) with
    | none => rfl
    | some float =>
      have hfloat := mem_of_mem_filter (captionTarget_mem htarget)
      simpa using hmain.mem_iff.mpr (mem_append_left _ hfloat)
  have hunbound := filter_append_perm
    (fun caption => (captionTarget caption (floatsOf members)).isNone) (captionsOf members)
  have hflow : ((cutOrder (mainOf members)).flatMap fun chain =>
      chain :: followersOf members chain).Perm (flowOf members ++ captionsOf members) := by
    have hsplit := map_append_flatMap_perm (cutOrder (mainOf members)) id
      (followersOf members)
    rw [map_id] at hsplit
    refine hsplit.symm.trans ((hmain.append hfollowers).trans ?_)
    rw [mainOf, append_assoc]
    apply List.Perm.append_left
    simpa [bound] using hunbound
  refine List.Perm.trans ?_ (parts_perm members)
  exact (hflow.append (cutOrder_perm _)).append (cutOrder_perm _)

/-! ### Ordering a page a second time -/

theorem mem_followersOf {caption float : Chain ι} :
  caption ∈ followersOf members float ↔
    caption ∈ captionsOf members ∧ captionTarget caption (floatsOf members) = some float
  := by
  simp [followersOf]

/-- A part of an ordered page without footnotes, headers and footers. -/
theorem filter_orderPage {p : Chain ι → Bool}
    (hfootnote : ∀ chain : Chain ι, chain.label = .footnote → p chain = false)
    (hfurniture : ∀ chain : Chain ι, isFurnitureLabel chain.label → p chain = false) :
  (orderPage members).filter p =
    ((cutOrder (mainOf members)).flatMap fun chain => chain :: followersOf members chain).filter p
  := by
  have hfootnotes : (cutOrder (footnotesOf members)).filter p = [] := by
    rw [filter_eq_nil_iff]
    intro chain hchain
    have hmem := (cutOrder_perm _).mem_iff.mp hchain
    simp [hfootnote chain (by simpa using (mem_filter.mp hmem).2)]
  have hfurnitures : (cutOrder (furnitureOf members)).filter p = [] := by
    rw [filter_eq_nil_iff]
    intro chain hchain
    have hmem := (cutOrder_perm _).mem_iff.mp hchain
    simp [hfurniture chain (by simpa using (mem_filter.mp hmem).2)]
  rw [orderPage, filter_append, filter_append, hfootnotes, hfurnitures,
    append_nil, append_nil]

theorem flowOf_orderPage :
  flowOf (orderPage members) = flowOf (cutOrder (mainOf members))
  := by
  rw [flowOf, filter_orderPage]
  · apply filter_flatMap_cons_left
    intro float _ caption hcaption
    simp [inFlow, label_of_mem_captionsOf (mem_followersOf.mp hcaption).1]
  · intro chain h
    simp [inFlow, h]
  · intro chain h
    simp [inFlow, h]

theorem floatsOf_orderPage :
  floatsOf (orderPage members) = floatsOf (cutOrder (mainOf members))
  := by
  rw [floatsOf, flowOf_orderPage, floatsOf]

theorem floatsOf_orderPage_perm :
  (floatsOf (orderPage members)).Perm (floatsOf members)
  := by
  rw [floatsOf_orderPage, floatsOf, floatsOf, ← flowOf_mainOf members]
  exact ((cutOrder_perm _).filter _).filter _

/-- A caption labels a float of the ordered page when it labels one of the page. -/
theorem captionTarget_orderPage_isNone (caption : Chain ι) :
  (captionTarget caption (floatsOf (orderPage members))).isNone =
    (captionTarget caption (floatsOf members)).isNone
  := captionTarget_isNone_perm floatsOf_orderPage_perm caption

theorem mainOf_orderPage :
  mainOf (orderPage members) =
    flowOf (cutOrder (mainOf members)) ++ captionsOf (cutOrder (mainOf members))
  := by
  rw [mainOf, flowOf_orderPage]
  congr 1
  simp only [captionTarget_orderPage_isNone]
  rw [captionsOf, filter_filter, filter_orderPage]
  · rw [filter_flatMap_cons_left]
    · apply filter_congr
      intro chain hchain
      by_cases hlabel : chain.label = .caption
      · simp [hlabel, captionTarget_of_mem_mainOf ((cutOrder_perm _).mem_iff.mp hchain) hlabel]
      · simp [hlabel]
    · intro float _ caption hcaption
      simp [(mem_followersOf.mp hcaption).2]
  · intro chain h
    simp [h]
  · intro chain h
    cases hlabel : chain.label <;> simp_all [isFurnitureLabel]

/-- The main text of an ordered page is cut as it was. -/
theorem cutOrder_mainOf_orderPage :
  cutOrder (mainOf (orderPage members)) = cutOrder (mainOf members)
  := by
  rw [mainOf_orderPage]
  apply cutOrder_congr (mainOf_parts_perm members)
  intro corner
  have hcorner := filter_cutOrder (mainOf members) corner
  rw [filter_append, flowOf, captionsOf, Sorting.filter_filter_congr hcorner,
    Sorting.filter_filter_congr hcorner]
  change (flowOf (mainOf members)).filter _ ++ (captionsOf (mainOf members)).filter _ = _
  rw [flowOf_mainOf, captionsOf_mainOf, mainOf, filter_append]

/-- The captions behind a float of an ordered page. -/
theorem followersOf_orderPage (float : Chain ι) :
  followersOf (orderPage members) float =
    (cutOrder (mainOf members)).flatMap fun chain => (followersOf members chain).filter fun caption =>
      captionTarget caption (floatsOf (orderPage members)) = some float
  := by
  rw [followersOf, captionsOf, filter_filter, filter_orderPage, filter_flatMap_cons_right]
  · apply flatMap_congr
    intro chain _
    apply filter_congr
    intro caption hcaption
    simp [label_of_mem_captionsOf (mem_followersOf.mp hcaption).1]
  · intro chain hchain
    by_cases hlabel : chain.label = .caption
    · have htarget := captionTarget_of_mem_mainOf ((cutOrder_perm _).mem_iff.mp hchain) hlabel
      rw [← Option.isNone_iff_eq_none, ← captionTarget_orderPage_isNone,
        Option.isNone_iff_eq_none] at htarget
      simp [htarget]
    · simp [hlabel]
  · intro chain h
    simp [h]
  · intro chain h
    cases hlabel : chain.label <;> simp_all [isFurnitureLabel]

/-- What comes before the footnotes. -/
theorem label_of_mem_flow {chain : Chain ι}
    (h : chain ∈ (cutOrder (mainOf members)).flatMap fun chain =>
      chain :: followersOf members chain) :
  chain.label ≠ .footnote ∧ isFurnitureLabel chain.label = false
  := by
  have hcaption : chain.label = .caption →
      chain.label ≠ .footnote ∧ isFurnitureLabel chain.label = false := by
    intro hlabel
    rw [hlabel]
    decide
  obtain ⟨float, hfloat, hmem⟩ := mem_flatMap.mp h
  rcases mem_cons.mp hmem with rfl | hfollower
  · rcases mem_append.mp ((cutOrder_perm _).mem_iff.mp hfloat) with hflow | hmain
    · have := (mem_filter.mp hflow).2
      simp only [inFlow, Bool.and_eq_true] at this
      exact ⟨by simpa using this.1.2, by simpa using this.1.1⟩
    · exact hcaption (label_of_mem_captionsOf (mem_of_mem_filter hmain))
  · exact hcaption (label_of_mem_captionsOf (mem_followersOf.mp hfollower).1)

theorem footnotesOf_orderPage :
  footnotesOf (orderPage members) = cutOrder (footnotesOf members)
  := by
  rw [footnotesOf, orderPage, filter_append, filter_append,
    filter_eq_nil_iff.mpr, nil_append, filter_eq_self.mpr,
    filter_eq_nil_iff.mpr, append_nil]
  · intro chain hchain hlabel
    have hfurniture := label_of_mem_furniture hchain
    rw [of_decide_eq_true hlabel] at hfurniture
    exact absurd hfurniture (by decide)
  · exact fun chain hchain => by simpa using label_of_mem_footnotes hchain
  · exact fun chain hchain => by simpa using (label_of_mem_flow hchain).1

theorem furnitureOf_orderPage :
  furnitureOf (orderPage members) = cutOrder (furnitureOf members)
  := by
  rw [furnitureOf, orderPage, filter_append, filter_append,
    filter_eq_nil_iff.mpr, nil_append, filter_eq_nil_iff.mpr, nil_append,
    filter_eq_self.mpr]
  · exact fun chain hchain => label_of_mem_furniture hchain
  · intro chain hchain
    rw [label_of_mem_footnotes hchain]
    decide
  · exact fun chain hchain => by simpa using (label_of_mem_flow hchain).2

/-- Each caption of the page labels one float whether the floats stand in the order of the
body or of the cut. -/
def TiesKept (members : List (Chain ι)) : Prop :=
  ∀ caption ∈ captionsOf members,
    captionTarget caption (floatsOf (cutOrder (mainOf members))) =
      captionTarget caption (floatsOf members)

/-- Ordering a page a second time changes nothing exactly when captions keep their floats. -/
theorem orderPage_orderPage_iff (h : members.Nodup) :
  orderPage (orderPage members) = orderPage members ↔ TiesKept members
  := by
  have hfloats : floatsOf (orderPage members) = floatsOf (cutOrder (mainOf members)) :=
    floatsOf_orderPage
  have hcancel : orderPage (orderPage members) = orderPage members ↔
      ((cutOrder (mainOf members)).flatMap fun chain =>
          chain :: followersOf (orderPage members) chain) =
        (cutOrder (mainOf members)).flatMap fun chain => chain :: followersOf members chain := by
    conv_lhs => enter [1]; rw [orderPage]
    rw [cutOrder_mainOf_orderPage, footnotesOf_orderPage, furnitureOf_orderPage,
      cutOrder_cutOrder, cutOrder_cutOrder]
    conv_lhs => enter [2]; rw [orderPage]
    rw [append_cancel_right_eq, append_cancel_right_eq]
  rw [hcancel]
  constructor
  · intro heq caption hcaption
    have hlabels : ∀ {caption float : Chain ι} {page : List (Chain ι)},
        caption ∈ followersOf page float → caption.label = .caption := fun hmem =>
      label_of_mem_captionsOf (mem_followersOf.mp hmem).1
    have hfollowers := eq_of_flatMap_cons_eq
      (p := fun chain =>
        (captionTarget chain (floatsOf members)).isSome && chain.label = .caption)
      (by
        intro chain hchain
        by_cases hlabel : chain.label = .caption
        · simp [captionTarget_of_mem_mainOf ((cutOrder_perm _).mem_iff.mp hchain) hlabel]
        · simp [hlabel])
      (by
        intro float _ other hother
        have htarget : (captionTarget other (floatsOf (orderPage members))).isNone =
            (captionTarget other (floatsOf members)).isNone :=
          captionTarget_orderPage_isNone other
        rw [(mem_followersOf.mp hother).2] at htarget
        simp [hlabels hother, ← Option.not_isNone, ← htarget])
      (by
        intro float _ other hother
        simp [hlabels hother, (mem_followersOf.mp hother).2])
      heq
    rw [← hfloats]
    cases htarget : captionTarget caption (floatsOf members) with
    | none =>
      rw [← Option.isNone_iff_eq_none, captionTarget_orderPage_isNone, htarget]
      rfl
    | some float =>
      have hfloat := (cutOrder_perm (mainOf members)).mem_iff.mpr
        (mem_append_left _ (mem_of_mem_filter (captionTarget_mem htarget)))
      have hmem : caption ∈ followersOf members float := mem_followersOf.mpr ⟨hcaption, htarget⟩
      rw [← hfollowers float hfloat] at hmem
      exact (mem_followersOf.mp hmem).2
  · intro hties
    apply flatMap_congr
    intro float hfloat
    congr 1
    rw [followersOf_orderPage, ← flatMap_pick
      ((cutOrder_perm _).nodup_iff.mpr (nodup_mainOf h)) hfloat (followersOf members float)]
    apply flatMap_congr
    intro chain _
    have htarget : ∀ caption ∈ followersOf members chain,
        captionTarget caption (floatsOf (orderPage members)) = some chain := by
      intro caption hcaption
      rw [hfloats, hties caption (mem_followersOf.mp hcaption).1, (mem_followersOf.mp hcaption).2]
    split
    case isTrue heq =>
      subst heq
      exact filter_eq_self.mpr fun caption hcaption => by simpa using htarget caption hcaption
    case isFalse hne =>
      exact filter_eq_nil_iff.mpr fun caption hcaption => by simp [htarget caption hcaption, hne]

end

/-! ### Other names for the items -/

theorem captionTarget_map (f : κ → ι) (caption : Chain κ) (floats : List (Chain κ)) :
  captionTarget (caption.map f) (floats.map (Chain.map f)) =
    (captionTarget caption floats).map (Chain.map f)
  := by
  have hstep : ∀ (best : Option (Chain κ × ℚ)) (float : Chain κ),
      nearerFloat caption.box (best.map fun found => (found.1.map f, found.2)) (float.map f) =
        (nearerFloat caption.box best float).map fun found => (found.1.map f, found.2) := by
    intro best float
    change (match captionGap caption.box float.box with | none => _ | some gap => _) = _
    unfold nearerFloat
    cases captionGap caption.box float.box with
    | none => rfl
    | some gap =>
      simp only [Option.all_map]
      change (if (best.all fun found => gap < found.2) then _ else _) = _
      split <;> rfl
  have hrun : ∀ (floats : List (Chain κ)) (best : Option (Chain κ × ℚ)),
      (floats.map (Chain.map f)).foldl (nearerFloat caption.box)
          (best.map fun found => (found.1.map f, found.2)) =
        (floats.foldl (nearerFloat caption.box) best).map fun found => (found.1.map f, found.2) := by
    intro floats
    induction floats with
    | nil => exact fun _ => rfl
    | cons float floats ih =>
      intro best
      rw [map_cons, foldl_cons, hstep, ih, foldl_cons]
  unfold captionTarget
  change (if caption.box.width ≤ 0 ∨ caption.box.height ≤ 0 then _ else _) = _
  split
  case isTrue => rfl
  case isFalse =>
    change ((floats.map (Chain.map f)).foldl (nearerFloat caption.box) none).map _ = _
    rw [← Option.map_none (f := fun found : Chain κ × ℚ => (found.1.map f, found.2)), hrun]
    simp [Function.comp_def]

theorem cutOrder_map (f : κ → ι) (members : List (Chain κ)) :
  cutOrder (members.map (Chain.map f)) = (cutOrder members).map (Chain.map f)
  := by
  rw [cutOrder_eq, orderMembers_map, cutOrder_eq]
  rfl

theorem floatsOf_map (f : κ → ι) (members : List (Chain κ)) :
  floatsOf (members.map (Chain.map f)) = (floatsOf members).map (Chain.map f)
  := by
  simp only [floatsOf, flowOf, filter_map]
  rfl

theorem mainOf_map (f : κ → ι) (members : List (Chain κ)) :
  mainOf (members.map (Chain.map f)) = (mainOf members).map (Chain.map f)
  := by
  simp only [mainOf, flowOf, captionsOf, filter_map, map_append, floatsOf_map,
    Function.comp_def, captionTarget_map, Option.isNone_map]
  rfl

theorem followersOf_map [DecidableEq ι] [DecidableEq κ] {f : κ → ι} (hf : Function.Injective f)
    (members : List (Chain κ)) (float : Chain κ) :
  followersOf (members.map (Chain.map f)) (float.map f) =
    (followersOf members float).map (Chain.map f)
  := by
  simp only [followersOf, captionsOf, filter_map, floatsOf_map, Function.comp_def,
    captionTarget_map, ← Option.map_some, (Option.map_injective (map_injective hf)).eq_iff]
  rfl

/-- The order of a page of renamed items is the renamed order. -/
theorem orderPage_map [DecidableEq ι] [DecidableEq κ] {f : κ → ι} (hf : Function.Injective f)
    (members : List (Chain κ)) :
  orderPage (members.map (Chain.map f)) = (orderPage members).map (Chain.map f)
  := by
  have hfootnotes : footnotesOf (members.map (Chain.map f)) =
      (footnotesOf members).map (Chain.map f) := by
    rw [footnotesOf, filter_map]
    rfl
  have hfurniture : furnitureOf (members.map (Chain.map f)) =
      (furnitureOf members).map (Chain.map f) := by
    rw [furnitureOf, filter_map]
    rfl
  rw [orderPage, mainOf_map, cutOrder_map, flatMap_map, hfootnotes, cutOrder_map, hfurniture,
    cutOrder_map]
  simp only [followersOf_map hf, orderPage, map_append, map_flatMap, map_cons]

end

end GRParse.Layout
