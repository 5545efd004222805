import GRParse.Lib.SortOn
import Mathlib.Algebra.Order.Field.Rat
import Mathlib.Data.Prod.Lex

/-!
# The XY-cut

Boxes are read by cutting the page at the widest whitespace that no box crosses, across the
rows or between columns, and reading either side the same way; boxes that nothing separates
are read from the top, and from the left among those that start level.  Coordinates are exact.

What is cut are members with a box each.  Where the cut goes depends on the boxes alone, so
the order of the members matters only among members that start at one point, which keep it:
`orderMembers_congr` says so.
-/

namespace GRParse.Layout

open Sorting List

/-! ### Boxes and gaps -/

/-- A box in top-down coordinates. -/
structure OrderBox where
  left : ℚ
  top : ℚ
  right : ℚ
  bottom : ℚ
  left_le : left ≤ right
  top_le : top ≤ bottom

/-- Boxes are compared by their sides. -/
instance OrderBox.decEq : DecidableEq OrderBox := fun a b =>
  decidable_of_iff (a.left = b.left ∧ a.top = b.top ∧ a.right = b.right ∧ a.bottom = b.bottom)
    (by cases a; cases b; simp)

/-- How the cut chooses between a band and a gutter. -/
structure CutPolicy where
  bandOverGutter : ℚ := 1
  gutterSideShare : ℚ := 0
  gutterParallelShare : ℚ := 1 / 4

/-- Whitespace that no box crosses: how wide it is, and where it begins. -/
structure Gap where
  width : ℚ
  position : ℚ

/-- A stretch of one axis. -/
abbrev Stretch := ℚ ×ₗ ℚ

def Stretch.start (stretch : Stretch) : ℚ :=
  (ofLex stretch).1

def Stretch.finish (stretch : Stretch) : ℚ :=
  (ofLex stretch).2

/-- What a box takes up of an axis, from top to bottom where rows are cut apart. -/
def OrderBox.stretch (horizontal : Bool) (box : OrderBox) : Stretch :=
  toLex (if horizontal then (box.top, box.bottom) else (box.left, box.right))

/-- Where a box starts, which is what puts it on a side of a cut. -/
def OrderBox.start (horizontal : Bool) (box : OrderBox) : ℚ :=
  if horizontal then box.top else box.left

@[simp]
theorem OrderBox.start_stretch (horizontal : Bool) (box : OrderBox) :
  (box.stretch horizontal).start = box.start horizontal
  := by
  cases horizontal <;> rfl

theorem OrderBox.start_le_finish (horizontal : Bool) (box : OrderBox) :
  box.start horizontal ≤ (box.stretch horizontal).finish
  := by
  cases horizontal
  · exact box.left_le
  · exact box.top_le

/-- The scan for the widest gap, at the next stretch: the best gap so far and the end of the
stretches that were seen. -/
def widen (s : Option Gap × ℚ) (stretch : Stretch) : Option Gap × ℚ :=
  let (best, bandEnd) := s
  let width := stretch.start - bandEnd
  (if 0 < width ∧ best.all (·.width < width) then some ⟨width, bandEnd⟩ else best,
    max bandEnd stretch.finish)

/-- `widest_gap`. -/
def widestGap (boxes : List OrderBox) (horizontal : Bool) : Option Gap :=
  match sortOn id (boxes.map (OrderBox.stretch horizontal)) with
  | [] => none
  | first :: rest => ((first :: rest).foldl widen (none, first.finish)).1

/-- From the first stretch on, a gap begins behind its end and before another stretch. -/
theorem foldl_widen_spec {stretches : List Stretch} {s : Option Gap × ℚ} {low : ℚ}
    {separated : ℚ → Prop} (hlow : low ≤ s.2)
    (hs : ∀ gap, s.1 = some gap → low ≤ gap.position ∧ separated gap.position)
    (hstretches : ∀ stretch ∈ stretches, ∀ at', at' < stretch.start → separated at') :
  ∀ gap, (stretches.foldl widen s).1 = some gap → low ≤ gap.position ∧ separated gap.position
  := by
  induction stretches generalizing s with
  | nil => exact hs
  | cons stretch stretches ih =>
    rw [foldl_cons]
    apply ih (hlow.trans (le_max_left _ _))
    · intro gap hgap
      simp only [widen] at hgap
      split at hgap
      case isTrue h =>
        obtain rfl := Option.some.inj hgap
        exact ⟨hlow, hstretches stretch (by simp) _ (sub_pos.mp h.1)⟩
      case isFalse => exact hs gap hgap
    · exact fun other hother => hstretches other (mem_cons_of_mem _ hother)

variable {horizontal : Bool}

/-- A gap has boxes on both sides. -/
theorem widestGap_splits {boxes : List OrderBox} {gap : Gap}
    (h : widestGap boxes horizontal = some gap) :
  (∃ box ∈ boxes, box.start horizontal ≤ gap.position) ∧
    ∃ box ∈ boxes, gap.position < box.start horizontal
  := by
  unfold widestGap at h
  split at h
  case h_1 => simp at h
  case h_2 first rest hsorted =>
    have hmem : ∀ stretch ∈ first :: rest, ∃ box ∈ boxes, box.stretch horizontal = stretch := by
      intro stretch hstretch
      rw [← hsorted] at hstretch
      exact mem_map.mp ((sortOn_perm _ _).mem_iff.mp hstretch)
    let separated (at' : ℚ) : Prop := ∃ box ∈ boxes, at' < box.start horizontal
    have hspec := @foldl_widen_spec (first :: rest) (none, first.finish) first.finish separated
      le_rfl (by simp) (by
        intro stretch hstretch at' hlt
        obtain ⟨box, hbox, rfl⟩ := hmem stretch hstretch
        exact ⟨box, hbox, by simpa using hlt⟩) gap h
    obtain ⟨box, hbox, rfl⟩ := hmem first (by simp)
    exact ⟨⟨box, hbox, (box.start_le_finish horizontal).trans hspec.1⟩, hspec.2⟩

/-! ### Gutters -/

/-- The rows that a list of boxes reaches over. -/
def extent (boxes : List OrderBox) : Option (ℚ × ℚ) :=
  boxes.foldl (fun reached box =>
    match reached with
    | none => some (box.top, box.bottom)
    | some (top, bottom) => some (min top box.top, max bottom box.bottom)) none

/-- `gutter_has_two_sides`: the boxes on either side run along enough of the block. -/
def gutterHasTwoSides (boxes : List OrderBox) (gap : Gap) (sideShare : ℚ) : Bool :=
  sideShare ≤ 0 ||
    (extent boxes).all fun (top, bottom) =>
      bottom - top ≤ 0 ||
        [boxes.filter (·.left ≤ gap.position), boxes.filter (gap.position < ·.left)].all fun side =>
          (extent side).any fun (sideTop, sideBottom) =>
            sideShare * (bottom - top) ≤ sideBottom - sideTop

/-- Rows, joined with the last of those before them where they overlap it. -/
def mergeRow (merged : List Stretch) (row : Stretch) : List Stretch :=
  match merged.getLast? with
  | some last =>
    if row.start ≤ last.finish then
      merged.dropLast ++ [toLex (last.start, max last.finish row.finish)]
    else merged ++ [row]
  | none => [row]

/-- `side_rows`: the rows that the boxes on one side of a gap take up. -/
def sideRows (boxes : List OrderBox) (gap : Gap) (after : Bool) : List Stretch :=
  (sortOn id ((boxes.filter fun box => (gap.position < box.left) = after).map
    (OrderBox.stretch true))).foldl mergeRow []

def totalLength (rows : List Stretch) : ℚ :=
  (rows.map fun row => row.finish - row.start).sum

/-- `shared_length`: how far two sets of rows are level with each other. -/
def sharedLength (a b : List Stretch) : ℚ :=
  (a.map fun left => (b.map fun right =>
    max 0 (min left.finish right.finish - max left.start right.start)).sum).sum

/-- `gutter_sides_run_parallel`. -/
def gutterSidesRunParallel (boxes : List OrderBox) (gap : Gap) (share : ℚ) : Bool :=
  let before := sideRows boxes gap false
  let after := sideRows boxes gap true
  let shorter := min (totalLength before) (totalLength after)
  share ≤ 0 || shorter ≤ 0 || share * shorter ≤ sharedLength before after

/-- Where a block is cut, and whether across its rows. -/
def chosenGap (policy : CutPolicy) (boxes : List OrderBox) : Option (Bool × Gap) :=
  let yGap := widestGap boxes true
  let xGap := (widestGap boxes false).filter fun gap =>
    gutterHasTwoSides boxes gap policy.gutterSideShare &&
      gutterSidesRunParallel boxes gap policy.gutterParallelShare
  match yGap, xGap with
  | some y, some x =>
    if policy.bandOverGutter * x.width ≤ y.width then some (true, y) else some (false, x)
  | some y, none => some (true, y)
  | none, some x => some (false, x)
  | none, none => none

/-- A block is cut at the widest gap of one axis. -/
theorem widestGap_of_chosenGap {policy : CutPolicy} {boxes : List OrderBox} {gap : Gap}
    (h : chosenGap policy boxes = some (horizontal, gap)) :
  widestGap boxes horizontal = some gap
  := by
  simp only [chosenGap] at h
  cases hy : widestGap boxes true with
  | none =>
    cases hx : (widestGap boxes false).filter fun gap =>
        gutterHasTwoSides boxes gap policy.gutterSideShare &&
          gutterSidesRunParallel boxes gap policy.gutterParallelShare with
    | none => simp [hy, hx] at h
    | some x =>
      obtain ⟨rfl, rfl⟩ : false = horizontal ∧ x = gap := by simpa [hy, hx] using h
      exact (Option.filter_eq_some_iff.mp hx).1
  | some y =>
    cases hx : (widestGap boxes false).filter fun gap =>
        gutterHasTwoSides boxes gap policy.gutterSideShare &&
          gutterSidesRunParallel boxes gap policy.gutterParallelShare with
    | none =>
      obtain ⟨rfl, rfl⟩ : true = horizontal ∧ y = gap := by simpa [hy, hx] using h
      exact hy
    | some x =>
      simp only [hy, hx] at h
      split at h
      · obtain ⟨rfl, rfl⟩ : true = horizontal ∧ y = gap := by simpa using h
        exact hy
      · obtain ⟨rfl, rfl⟩ : false = horizontal ∧ x = gap := by simpa using h
        exact (Option.filter_eq_some_iff.mp hx).1

/-- Where a block is cut, it has boxes on both sides. -/
theorem chosenGap_splits {policy : CutPolicy} {boxes : List OrderBox} {gap : Gap}
    (h : chosenGap policy boxes = some (horizontal, gap)) :
  (∃ box ∈ boxes, box.start horizontal ≤ gap.position) ∧
    ∃ box ∈ boxes, gap.position < box.start horizontal
  := widestGap_splits (widestGap_of_chosenGap h)

/-! ### The cut looks at the boxes only -/

variable {boxes boxes' : List OrderBox}

theorem widestGap_perm (h : boxes.Perm boxes') (horizontal : Bool) :
  widestGap boxes horizontal = widestGap boxes' horizontal
  := by
  rw [widestGap, sortOn_eq_of_perm (h.map _), widestGap]

theorem extent_perm (h : boxes.Perm boxes') :
  extent boxes = extent boxes'
  := by
  apply h.foldl_eq'
  rintro box - other - reached
  cases reached with
  | none => simp [min_comm, max_comm]
  | some rows => simp [min_right_comm, max_right_comm]

theorem gutterHasTwoSides_perm (h : boxes.Perm boxes') (gap : Gap) (share : ℚ) :
  gutterHasTwoSides boxes gap share = gutterHasTwoSides boxes' gap share
  := by
  simp only [gutterHasTwoSides, extent_perm h, all_cons, all_nil,
    extent_perm (h.filter (·.left ≤ gap.position)),
    extent_perm (h.filter (gap.position < ·.left))]

theorem sideRows_perm (h : boxes.Perm boxes') (gap : Gap) (after : Bool) :
  sideRows boxes gap after = sideRows boxes' gap after
  := by
  rw [sideRows, sortOn_eq_of_perm ((h.filter _).map _), sideRows]

theorem chosenGap_perm (h : boxes.Perm boxes') (policy : CutPolicy) :
  chosenGap policy boxes = chosenGap policy boxes'
  := by
  simp only [chosenGap, widestGap_perm h, gutterHasTwoSides_perm h, gutterSidesRunParallel,
    sideRows_perm h]

/-! ### The order -/

section

variable {ι κ : Type}

/-- The corner a box is read from, which decides where nothing else does. -/
def OrderBox.corner (box : OrderBox) : ℚ ×ₗ ℚ :=
  toLex (box.top, box.left)

/-- The members that start no later than a gap. -/
def beforeGap (box : ι → OrderBox) (horizontal : Bool) (gap : Gap) (members : List ι) : List ι :=
  members.filter fun member => (box member).start horizontal ≤ gap.position

/-- The members that start behind a gap. -/
def behindGap (box : ι → OrderBox) (horizontal : Bool) (gap : Gap) (members : List ι) : List ι :=
  members.filter fun member => gap.position < (box member).start horizontal

theorem length_sides_lt {policy : CutPolicy} {box : ι → OrderBox} {members : List ι} {gap : Gap}
    (h : chosenGap policy (members.map box) = some (horizontal, gap)) :
  (beforeGap box horizontal gap members).length < members.length ∧
    (behindGap box horizontal gap members).length < members.length
  := by
  obtain ⟨⟨first, hfirst, hbefore⟩, last, hlast, hafter⟩ := chosenGap_splits h
  obtain ⟨member, hmember, rfl⟩ := mem_map.mp hfirst
  obtain ⟨other, hother, rfl⟩ := mem_map.mp hlast
  constructor
  · exact length_filter_lt_length_iff_exists.mpr ⟨other, hother, by simpa using hafter⟩
  · exact length_filter_lt_length_iff_exists.mpr ⟨member, hmember, by simpa using hbefore⟩

/-- `order_members`. -/
def orderMembers (policy : CutPolicy) (box : ι → OrderBox) (members : List ι) : List ι :=
  if members.length ≤ 1 then members
  else
    match _h : chosenGap policy (members.map box) with
    | some (horizontal, gap) =>
      orderMembers policy box (beforeGap box horizontal gap members) ++
        orderMembers policy box (behindGap box horizontal gap members)
    | none => sortOn (fun member => (box member).corner) members
termination_by members.length
decreasing_by
  · exact (length_sides_lt _h).1
  · exact (length_sides_lt _h).2

variable {policy : CutPolicy} {box : ι → OrderBox} {members : List ι}

theorem orderMembers_short (h : members.length ≤ 1) :
  orderMembers policy box members = members
  := by
  rw [orderMembers, if_pos h]

/-- Where there is a gap, either side is read by itself. -/
theorem orderMembers_cut {gap : Gap} (hlong : ¬ members.length ≤ 1)
    (h : chosenGap policy (members.map box) = some (horizontal, gap)) :
  orderMembers policy box members =
    orderMembers policy box (beforeGap box horizontal gap members) ++
      orderMembers policy box (behindGap box horizontal gap members)
  := by
  rw [orderMembers, if_neg hlong]
  split
  case h_1 horizontal' gap' heq =>
    obtain ⟨rfl, rfl⟩ : horizontal = horizontal' ∧ gap = gap' := by simpa [h] using heq
    rfl
  case h_2 heq => simp [h] at heq

/-- Where there is none, the corners decide. -/
theorem orderMembers_leaf (hlong : ¬ members.length ≤ 1)
    (h : chosenGap policy (members.map box) = none) :
  orderMembers policy box members = sortOn (fun member => (box member).corner) members
  := by
  rw [orderMembers, if_neg hlong]
  split
  case h_1 heq => simp [h] at heq
  case h_2 => rfl

theorem sides_perm (box : ι → OrderBox) (horizontal : Bool) (gap : Gap) (members : List ι) :
  (beforeGap box horizontal gap members ++ behindGap box horizontal gap members).Perm members
  := by
  have h := filter_append_perm
    (fun member => decide ((box member).start horizontal ≤ gap.position)) members
  simpa only [beforeGap, behindGap, ← not_le, decide_not] using h

/-- The order is an order of the members, each once. -/
theorem orderMembers_perm (policy : CutPolicy) (box : ι → OrderBox) (members : List ι) :
  (orderMembers policy box members).Perm members
  := by
  fun_induction orderMembers policy box members with
  | case1 => exact .refl _
  | case2 members _ horizontal gap _ ihBefore ihBehind =>
    exact (ihBefore.append ihBehind).trans (sides_perm box horizontal gap members)
  | case3 members => exact sortOn_perm _ members

/-- The order of images is the images of the order. -/
theorem orderMembers_map (policy : CutPolicy) (box : ι → OrderBox) (f : κ → ι) (members : List κ) :
  orderMembers policy box (members.map f) =
    (orderMembers policy (fun member => box (f member)) members).map f
  := by
  fun_induction orderMembers policy (fun member => box (f member)) members with
  | case1 members h => exact orderMembers_short (by simpa using h)
  | case2 members h horizontal gap hgap ihBefore ihBehind =>
    have hcut : chosenGap policy ((members.map f).map box) = some (horizontal, gap) := by
      rw [map_map]
      exact hgap
    rw [orderMembers_cut (by simpa using h) hcut, map_append, ← ihBefore, ← ihBehind]
    simp [beforeGap, behindGap, filter_map, Function.comp_def]
  | case3 members h hgap =>
    have hleaf : chosenGap policy ((members.map f).map box) = none := by
      rw [map_map]
      exact hgap
    rw [orderMembers_leaf (by simpa using h) hleaf, sortOn_map]

/-- Members with one corner are on one side of every cut. -/
theorem start_of_corner {box box' : OrderBox} (h : box.corner = box'.corner) (horizontal : Bool) :
  box.start horizontal = box'.start horizontal
  := by
  obtain ⟨htop, hleft⟩ : box.top = box'.top ∧ box.left = box'.left := by
    simpa [OrderBox.corner] using h
  cases horizontal
  · exact hleft
  · exact htop

/-- A cut leaves the members with one corner in their order. -/
theorem filter_sides (box : ι → OrderBox) (horizontal : Bool) (gap : Gap) (members : List ι)
    (corner : ℚ ×ₗ ℚ) :
  (beforeGap box horizontal gap members).filter (fun member => (box member).corner = corner) ++
      (behindGap box horizontal gap members).filter (fun member => (box member).corner = corner) =
    members.filter fun member => (box member).corner = corner
  := by
  simp only [beforeGap, behindGap, filter_filter]
  by_cases h : ∃ member, (box member).corner = corner ∧
      (box member).start horizontal ≤ gap.position
  · obtain ⟨first, hcorner, hstart⟩ := h
    have hbefore : ∀ member, (box member).corner = corner →
        (box member).start horizontal ≤ gap.position := by
      intro member hmember
      rwa [start_of_corner (hmember.trans hcorner.symm)]
    have hnone : (members.filter fun member => decide ((box member).corner = corner) &&
        decide (gap.position < (box member).start horizontal)) = [] := by
      simp +contextual [filter_eq_nil_iff, hbefore]
    rw [hnone, append_nil]
    apply filter_congr
    simp +contextual [hbefore]
  · push Not at h
    have hnone : (members.filter fun member => decide ((box member).corner = corner) &&
        decide ((box member).start horizontal ≤ gap.position)) = [] := by
      simp +contextual [filter_eq_nil_iff, h]
    rw [hnone, nil_append]
    apply filter_congr
    simp +contextual [h]

/-- Members with one corner keep their order. -/
theorem filter_orderMembers (policy : CutPolicy) (box : ι → OrderBox) (members : List ι)
    (corner : ℚ ×ₗ ℚ) :
  (orderMembers policy box members).filter (fun member => (box member).corner = corner) =
    members.filter fun member => (box member).corner = corner
  := by
  fun_induction orderMembers policy box members with
  | case1 => rfl
  | case2 members _ horizontal gap _ ihBefore ihBehind =>
    rw [filter_append, ihBefore, ihBehind, filter_sides]
  | case3 members => exact filter_sortOn _ corner members

/-- The order of the members matters only among members with one corner. -/
theorem orderMembers_congr {members' : List ι} (hperm : members.Perm members')
    (h : ∀ corner, members.filter (fun member => (box member).corner = corner) =
      members'.filter fun member => (box member).corner = corner) :
  orderMembers policy box members = orderMembers policy box members'
  := by
  fun_induction orderMembers policy box members generalizing members' with
  | case1 members hshort =>
    rw [orderMembers_short (by rwa [← hperm.length_eq])]
    match members, hshort with
    | [], _ => exact (nil_perm.mp hperm).symm
    | [member], _ => exact singleton_perm.mp hperm
  | case2 members hlong horizontal gap hgap ihBefore ihBehind =>
    have hcut : chosenGap policy (members'.map box) = some (horizontal, gap) := by
      rw [← chosenGap_perm (hperm.map box), hgap]
    rw [orderMembers_cut (by rwa [← hperm.length_eq]) hcut]
    congr 1
    · apply ihBefore (hperm.filter _)
      intro corner
      exact filter_filter_congr (h corner)
    · apply ihBehind (hperm.filter _)
      intro corner
      exact filter_filter_congr (h corner)
  | case3 members hlong hgap =>
    have hleaf : chosenGap policy (members'.map box) = none := by
      rw [← chosenGap_perm (hperm.map box), hgap]
    rw [orderMembers_leaf (by rwa [← hperm.length_eq]) hleaf]
    exact sortOn_congr h

end

/-- `xy_cut_order`: a box with an edge that is not finite is missing here. -/
def xyCutOrder (policy : CutPolicy) (boxes : List (Option OrderBox)) : List ℕ :=
  let members := boxes.zipIdx.filterMap fun (box, index) => box.map fun box => (box, index)
  let unplaced := boxes.zipIdx.filterMap fun (box, index) => if box.isNone then some index else none
  (orderMembers policy Prod.fst members).map Prod.snd ++ unplaced

/-- Members that all have a box are read in the order of their boxes. -/
theorem filterMap_xyCutOrder {ι : Type} (policy : CutPolicy) (box : ι → OrderBox)
    (members : List ι) :
  (xyCutOrder policy (members.map fun member => some (box member))).filterMap (members[·]?) =
    orderMembers policy box members
  := by
  have hplaced : (members.map fun member => some (box member)).zipIdx.filterMap
      (fun (box, index) => box.map fun box => (box, index)) =
        members.zipIdx.map fun entry => (box entry.1, entry.2) := by
    rw [zipIdx_map, filterMap_map, ← filterMap_eq_map]
    rfl
  have hunplaced : (members.map fun member => some (box member)).zipIdx.filterMap
      (fun (box, index) => if box.isNone then some index else none) = [] := by
    rw [zipIdx_map, filterMap_map, filterMap_eq_nil_iff]
    exact fun _ _ => rfl
  have hmembers : members.zipIdx.map Prod.fst = members := zipIdx_map_fst 0 members
  have hentries : ∀ entry ∈ orderMembers policy (fun entry => box entry.1) members.zipIdx,
      members[entry.2]? = some entry.1 := by
    intro entry hentry
    exact mem_zipIdx_iff_getElem?.mp ((orderMembers_perm _ _ _).mem_iff.mp hentry)
  simp only [xyCutOrder, hplaced, hunplaced, append_nil]
  rw [orderMembers_map, map_map, filterMap_map]
  conv_rhs => rw [← hmembers, orderMembers_map, ← filterMap_eq_map]
  exact filterMap_congr hentries

end GRParse.Layout
