import GRParse.Layout.XyCut
import Mathlib.Data.List.Induction

/-!
# The cuts of a page

Nothing crosses a cut: the boxes that start before the gap also end before it begins, and all
of them are read before those behind it.  As both sides have a box, the blocks get shorter and
the cutting comes to an end.
-/

namespace GRParse.Layout

open Sorting List

/-! ### Gaps are not crossed -/

/-- A stretch lies on one side of a position, where it ends by then or has not started yet. -/
def Stretch.Avoids (stretch : Stretch) (position : ℚ) : Prop :=
  stretch.finish ≤ position ∨ position < stretch.start

/-- Over stretches in the order of their starts, no stretch that was seen or is to come crosses
the best gap. -/
theorem foldl_widen_avoids {seen stretches : List Stretch} {s : Option Gap × ℚ}
    (hsorted : stretches.Pairwise fun a b => a.start ≤ b.start)
    (hband : ∀ stretch ∈ seen, stretch.finish ≤ s.2)
    (hbest : ∀ gap, s.1 = some gap → ∀ stretch ∈ seen ++ stretches, stretch.Avoids gap.position) :
  ∀ gap, (stretches.foldl widen s).1 = some gap →
    ∀ stretch ∈ seen ++ stretches, stretch.Avoids gap.position
  := by
  induction stretches generalizing seen s with
  | nil => exact hbest
  | cons next stretches ih =>
    obtain ⟨hnext, hsorted⟩ := pairwise_cons.mp hsorted
    have happend : seen ++ next :: stretches = (seen ++ [next]) ++ stretches := by simp
    rw [foldl_cons, happend]
    apply ih hsorted
    · intro stretch hstretch
      obtain hseen | hlast := mem_append.mp hstretch
      · exact (hband stretch hseen).trans (le_max_left _ _)
      · rw [mem_singleton.mp hlast]
        exact le_max_right _ _
    · intro gap hgap stretch hstretch
      rw [← happend] at hstretch
      simp only [widen] at hgap
      split at hgap
      case isFalse => exact hbest gap hgap stretch hstretch
      case isTrue h =>
        obtain rfl := Option.some.inj hgap
        have hbehind : s.2 < next.start := sub_pos.mp h.1
        obtain hseen | hrest := mem_append.mp hstretch
        · exact .inl (hband stretch hseen)
        obtain rfl | hlater := mem_cons.mp hrest
        · exact .inr hbehind
        · exact .inr (hbehind.trans_le (hnext stretch hlater))

/-- A box that starts before a gap ends before it. -/
theorem widestGap_avoids {boxes : List OrderBox} {horizontal : Bool} {gap : Gap}
    (h : widestGap boxes horizontal = some gap) :
  ∀ box ∈ boxes, (box.stretch horizontal).Avoids gap.position
  := by
  intro box hbox
  have hmem : box.stretch horizontal ∈ sortOn id (boxes.map (OrderBox.stretch horizontal)) :=
    (sortOn_perm _ _).mem_iff.mpr (mem_map_of_mem hbox)
  have hsorted := pairwise_sortOn id (boxes.map (OrderBox.stretch horizontal))
  unfold widestGap at h
  split at h
  case h_1 => simp at h
  case h_2 first rest heq =>
    rw [heq] at hmem hsorted
    have hstarts : (first :: rest).Pairwise fun a b => a.start ≤ b.start :=
      hsorted.imp fun {a b} hle => Prod.Lex.monotone_fst a b hle
    exact @foldl_widen_avoids [] _ _ hstarts (by simp) (by simp) gap h _ hmem

/-! ### The blocks of an order -/

section

variable {ι : Type} (policy : CutPolicy) (box : ι → OrderBox) (members : List ι)

/-- The blocks that the order of members comes to, cut after cut. -/
inductive Blocks : List ι → Prop
  | whole : Blocks members
  | before {block : List ι} {horizontal : Bool} {gap : Gap} (hblock : Blocks block)
      (hgap : chosenGap policy (block.map box) = some (horizontal, gap)) :
      Blocks (beforeGap box horizontal gap block)
  | behind {block : List ι} {horizontal : Bool} {gap : Gap} (hblock : Blocks block)
      (hgap : chosenGap policy (block.map box) = some (horizontal, gap)) :
      Blocks (behindGap box horizontal gap block)

variable {policy box members}

/-- A block that is cut has more than one member. -/
theorem not_length_le_one_of_chosenGap {block : List ι} {horizontal : Bool} {gap : Gap}
    (hgap : chosenGap policy (block.map box) = some (horizontal, gap)) :
  ¬ block.length ≤ 1
  := by
  have hsides := length_sides_lt hgap
  have hperm := (sides_perm box horizontal gap block).length_eq
  rw [length_append] at hperm
  omega

/-- The order of a block is a stretch of the order of all members. -/
theorem Blocks.isInfix {block : List ι} (h : Blocks policy box members block) :
  orderMembers policy box block <:+: orderMembers policy box members
  := by
  induction h with
  | whole => exact infix_rfl
  | before hblock hgap ih =>
    rw [orderMembers_cut (not_length_le_one_of_chosenGap hgap) hgap] at ih
    exact (prefix_append _ _).isInfix.trans ih
  | behind hblock hgap ih =>
    rw [orderMembers_cut (not_length_le_one_of_chosenGap hgap) hgap] at ih
    exact (suffix_append _ _).isInfix.trans ih

/-- What lies before a gap is read before what lies behind it. -/
theorem Blocks.pair_sublist {block : List ι} {horizontal : Bool} {gap : Gap}
    (h : Blocks policy box members block)
    (hgap : chosenGap policy (block.map box) = some (horizontal, gap)) {a b : ι}
    (ha : a ∈ beforeGap box horizontal gap block) (hb : b ∈ behindGap box horizontal gap block) :
  [a, b].Sublist (orderMembers policy box members)
  := by
  have hpart := h.isInfix
  rw [orderMembers_cut (not_length_le_one_of_chosenGap hgap) hgap] at hpart
  apply List.Sublist.trans _ hpart.sublist
  have hnear : [a].Sublist (orderMembers policy box (beforeGap box horizontal gap block)) :=
    singleton_sublist.mpr ((orderMembers_perm _ _ _).mem_iff.mpr ha)
  have hfar : [b].Sublist (orderMembers policy box (behindGap box horizontal gap block)) :=
    singleton_sublist.mpr ((orderMembers_perm _ _ _).mem_iff.mpr hb)
  exact hnear.append hfar

/-- Of two members the one that starts higher is read first, unless it is wholly to the right. -/
theorem pair_sublist_orderMembers {upper lower : ι} (hupper : upper ∈ members)
    (hlower : lower ∈ members) (hleft : (box upper).left ≤ (box lower).right)
    (htop : (box upper).top < (box lower).top) :
  [upper, lower].Sublist (orderMembers policy box members)
  := by
  fun_induction orderMembers policy box members with
  | case1 members hshort =>
    have hpos := length_pos_of_mem hupper
    obtain ⟨member, rfl⟩ := length_eq_one_iff.mp (by omega : members.length = 1)
    rw [mem_singleton.mp hupper, mem_singleton.mp hlower] at htop
    exact absurd htop (lt_irrefl _)
  | case2 members _ horizontal gap hgap ihBefore ihBehind =>
    have hbefore {member : ι} (hmember : member ∈ members)
        (h : (box member).start horizontal ≤ gap.position) :
        member ∈ beforeGap box horizontal gap members := by
      simpa [beforeGap, hmember] using h
    have hbehind {member : ι} (hmember : member ∈ members)
        (h : ¬ (box member).start horizontal ≤ gap.position) :
        member ∈ behindGap box horizontal gap members := by
      simpa [behindGap, hmember] using h
    by_cases hu : (box upper).start horizontal ≤ gap.position
    · by_cases hl : (box lower).start horizontal ≤ gap.position
      · exact (ihBefore (hbefore hupper hu) (hbefore hlower hl)).trans (sublist_append_left _ _)
      · have hfirst := (orderMembers_perm policy box _).mem_iff.mpr (hbefore hupper hu)
        have hlast := (orderMembers_perm policy box _).mem_iff.mpr (hbehind hlower hl)
        exact (singleton_sublist.mpr hfirst).append (singleton_sublist.mpr hlast)
    · have hl : ¬ (box lower).start horizontal ≤ gap.position := by
        intro hl
        apply hu
        cases horizontal with
        | true => exact htop.le.trans hl
        | false =>
          -- the lower box starts left of the gutter, so it ends there, and the upper one starts there
          have havoids := widestGap_avoids (widestGap_of_chosenGap hgap) (box lower)
            (mem_map_of_mem hlower)
          exact hleft.trans (havoids.resolve_right hl.not_gt)
      exact (ihBehind (hbehind hupper hu) (hbehind hlower hl)).trans (sublist_append_right _ _)
  | case3 members =>
    apply pair_sublist_sortOn _ hupper hlower
    exact Prod.Lex.toLex_lt_toLex.mpr (Or.inl htop)

end

/-! ### The order of a page -/

/-- The boxes that are placed, with their indexes. -/
def placedBoxes (boxes : List (Option OrderBox)) : List (OrderBox × ℕ) :=
  boxes.zipIdx.filterMap fun (box, index) => box.map fun box => (box, index)

/-- The indexes of the boxes that are not. -/
def unplacedBoxes (boxes : List (Option OrderBox)) : List ℕ :=
  (List.range boxes.length).filter fun index => boxes[index]? = some none

theorem filterMap_zipIdx_isNone (boxes : List (Option OrderBox)) :
  boxes.zipIdx.filterMap (fun (box, index) => if box.isNone then some index else none) =
    unplacedBoxes boxes
  := by
  induction boxes using reverseRecOn with
  | nil => rfl
  | append_singleton boxes box ih =>
    have hbefore : (range boxes.length).filter (fun index => (boxes ++ [box])[index]? = some none) =
        unplacedBoxes boxes := by
      apply filter_congr
      intro index hindex
      rw [getElem?_append_left (mem_range.mp hindex)]
    rw [zipIdx_append, filterMap_append, ih, ← hbefore, unplacedBoxes,
      length_append, length_singleton, range_succ, filter_append]
    cases box <;> simp

theorem xyCutOrder_eq (policy : CutPolicy) (boxes : List (Option OrderBox)) :
  xyCutOrder policy boxes =
    (orderMembers policy Prod.fst (placedBoxes boxes)).map Prod.snd ++ unplacedBoxes boxes
  := by
  rw [← filterMap_zipIdx_isNone]
  rfl

theorem placedBoxes_append_unplacedBoxes (boxes : List (Option OrderBox)) :
  ((placedBoxes boxes).map Prod.snd ++ unplacedBoxes boxes).Perm (List.range boxes.length)
  := by
  have hplaced : (placedBoxes boxes).map Prod.snd =
      (range boxes.length).filter fun index => ¬ boxes[index]? = some none := by
    induction boxes using reverseRecOn with
    | nil => rfl
    | append_singleton boxes box ih =>
      have hbefore : (range boxes.length).filter
          (fun index => ¬ (boxes ++ [box])[index]? = some none) =
            (placedBoxes boxes).map Prod.snd := by
        rw [ih]
        apply filter_congr
        intro index hindex
        rw [getElem?_append_left (mem_range.mp hindex)]
      rw [placedBoxes, zipIdx_append, filterMap_append, map_append,
        length_append, length_singleton, range_succ, filter_append, hbefore]
      cases box <;> simp [placedBoxes]
  rw [hplaced, unplacedBoxes]
  apply perm_append_comm.trans
  simpa using filter_append_perm (fun index => decide (boxes[index]? = some none))
    (range boxes.length)

/-- The order lists every box once, those that are not placed last and as they come in.  Wherever
a block is cut, there are boxes on both sides, none of those before the gap reaches past its
beginning, and all of them are read before those behind it. -/
theorem xyCutOrder_cuts (policy : CutPolicy) (boxes : List (Option OrderBox)) :
  (xyCutOrder policy boxes).Perm (List.range boxes.length) ∧
    (∃ placed, xyCutOrder policy boxes = placed ++ unplacedBoxes boxes) ∧
    ∀ block horizontal gap, Blocks policy Prod.fst (placedBoxes boxes) block →
      chosenGap policy (block.map Prod.fst) = some (horizontal, gap) →
      beforeGap Prod.fst horizontal gap block ≠ [] ∧ behindGap Prod.fst horizontal gap block ≠ [] ∧
      (∀ entry ∈ beforeGap Prod.fst horizontal gap block,
        (entry.1.stretch horizontal).finish ≤ gap.position) ∧
      ∀ a ∈ beforeGap Prod.fst horizontal gap block, ∀ b ∈ behindGap Prod.fst horizontal gap block,
        [a.2, b.2].Sublist (xyCutOrder policy boxes)
  := by
  rw [xyCutOrder_eq]
  refine ⟨?_, ⟨_, rfl⟩, ?_⟩
  · apply List.Perm.trans _ (placedBoxes_append_unplacedBoxes boxes)
    exact ((orderMembers_perm _ _ _).map _).append_right _
  intro block horizontal gap hblock hgap
  obtain ⟨⟨first, hfirst, hbefore⟩, last, hlast, hbehind⟩ := chosenGap_splits hgap
  obtain ⟨a, ha, rfl⟩ := List.mem_map.mp hfirst
  obtain ⟨b, hb, rfl⟩ := List.mem_map.mp hlast
  refine ⟨List.ne_nil_of_mem (a := a) ?_, List.ne_nil_of_mem (a := b) ?_, ?_, ?_⟩
  · simpa [beforeGap] using ⟨ha, hbefore⟩
  · simpa [behindGap] using ⟨hb, hbehind⟩
  · intro entry hentry
    obtain ⟨hmem, hstart⟩ := List.mem_filter.mp hentry
    have havoids := widestGap_avoids (widestGap_of_chosenGap hgap) entry.1
      (List.mem_map_of_mem hmem)
    apply havoids.resolve_right
    rw [OrderBox.start_stretch]
    simpa using hstart
  · intro a ha b hb
    have hpair := (hblock.pair_sublist hgap ha hb).map Prod.snd
    exact hpair.trans (List.sublist_append_left _ _)

/-- Of two boxes the one that starts higher is read first, unless it is wholly to the right. -/
theorem xyCutOrder_above (policy : CutPolicy) {boxes : List (Option OrderBox)} {i j : ℕ}
    {upper lower : OrderBox} (hupper : boxes[i]? = some (some upper))
    (hlower : boxes[j]? = some (some lower)) (hleft : upper.left ≤ lower.right)
    (htop : upper.top < lower.top) :
  [i, j].Sublist (xyCutOrder policy boxes)
  := by
  have hmem {k : ℕ} {box : OrderBox} (h : boxes[k]? = some (some box)) :
      (box, k) ∈ placedBoxes boxes :=
    mem_filterMap.mpr ⟨(some box, k), mem_zipIdx_iff_getElem?.mpr h, rfl⟩
  rw [xyCutOrder_eq]
  have hordered : [(upper, i), (lower, j)].Sublist
      (orderMembers policy Prod.fst (placedBoxes boxes)) :=
    pair_sublist_orderMembers (hmem hupper) (hmem hlower) hleft htop
  exact (hordered.map Prod.snd).trans (sublist_append_left _ _)

/-- A title over the gutter is read before the paragraph that starts below it. -/
theorem xyCutOrder_above_title :
  [1, 0].Sublist (xyCutOrder {}
    [some ⟨0, 2, 4, 9, by decide, by decide⟩, some ⟨3, 0, 8, 1, by decide, by decide⟩])
  := xyCutOrder_above {} rfl rfl (by decide) (by decide)

end GRParse.Layout
