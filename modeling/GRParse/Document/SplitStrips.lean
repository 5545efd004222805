import GRParse.Document.SplitPieces
import Mathlib.Tactic.Linarith

/-!
# The strips of a box

The shares of the pieces go from nothing to the whole, each piece taking up where the one before left
off, so that their strips tile the box from its top to its bottom.  A box that is measured from the
bottom of a page can be cut only where the height of the page is known.
-/

namespace GRParse.Splitting

open Containers Protobuf Layout Utf8 Stretches

/-! ### Page heights -/

theorem documentPageHeights_pos {document : Layout.Document} {page : ℤ} {height : ℚ}
    (h : documentPageHeights document page = some height) :
  0 < height
  := by
  rw [documentPageHeights] at h
  split at h
  case h_1 item hstated =>
    cases h
    simpa using (Option.filter_eq_some_iff.mp hstated).2
  case h_2 =>
    dsimp only at h
    split at h
    case isTrue hextent =>
      cases h
      exact hextent
    case isFalse => cases h

/-- A box can be cut: it is measured from the top, or its page has a height. -/
def Measured (heights : PageHeights) (page : ℤ) (box : BoundingBox) : Prop :=
  box.coordOrigin = .bottomLeft → (heights page).isSome

/-! ### Tilings -/

/-- Strips tile what lies between two sides, from one height down to another. -/
def Tiles (left right : ℚ) : ℚ → List TopDownBox → ℚ → Prop
  | top, [], bottom => top = bottom
  | top, strip :: strips, bottom =>
    strip.left = left ∧ strip.right = right ∧ strip.top = top ∧
      Tiles left right strip.bottom strips bottom

/-- Strips that go from bound to bound tile. -/
theorem tiles_between {left right : ℚ} {place : ℚ → ℚ} {bounds : List ℚ} {strip : ℚ × ℚ → TopDownBox}
    (hstrip : ∀ stretch ∈ between bounds, (strip stretch).left = left ∧
      (strip stretch).right = right ∧ (strip stretch).top = place stretch.1 ∧
      (strip stretch).bottom = place stretch.2)
    {first last : ℚ} (hfirst : bounds.head? = some first) (hlast : bounds.getLast? = some last) :
  Tiles left right (place first) ((between bounds).map strip) (place last)
  := by
  induction bounds generalizing first with
  | nil => cases hfirst
  | cons start bounds ih =>
    obtain rfl := Option.some.inj hfirst
    cases bounds with
    | nil =>
      obtain rfl := Option.some.inj hlast
      rfl
    | cons second bounds =>
      rw [between_cons_cons] at hstrip ⊢
      obtain ⟨⟨hleft, hright, htop, hbottom⟩, hothers⟩ := List.forall_mem_cons.mp hstrip
      rw [List.getLast?_cons_cons] at hlast
      refine ⟨hleft, hright, htop, ?_⟩
      rw [hbottom]
      exact ih hothers rfl hlast

/-! ### Strips -/

theorem topDownBox_left (box : BoundingBox) (pageHeight : ℚ) :
  (topDownBox box pageHeight).left = min box.l box.r
  := by
  rw [topDownBox]
  split <;> rfl

theorem topDownBox_right (box : BoundingBox) (pageHeight : ℚ) :
  (topDownBox box pageHeight).right = max box.l box.r
  := by
  rw [topDownBox]
  split <;> rfl

section

variable {box : BoundingBox} {pageHeight top bottom : ℚ}

/-- A box with edges set in its own coordinates has these edges from the top. -/
theorem topDownBox_of_bottomLeft (h : box.coordOrigin = .bottomLeft) (hle : top ≤ bottom) :
  let cut := topDownBox { box with t := pageHeight - top, b := pageHeight - bottom } pageHeight
  cut.top = top ∧ cut.bottom = bottom
  := by
  have hsub := sub_le_sub_left hle pageHeight
  simp only [topDownBox, h, if_true, max_eq_left hsub, min_eq_right hsub, sub_sub_cancel, and_self]

theorem topDownBox_of_top (h : box.coordOrigin ≠ .bottomLeft) (hle : top ≤ bottom) :
  let cut := topDownBox { box with t := top, b := bottom } pageHeight
  cut.top = top ∧ cut.bottom = bottom
  := by
  simp only [topDownBox, h, if_false, max_eq_right hle, min_eq_left hle, and_self]

/-- The strip of a box, measured from the top. -/
theorem topDownBox_stripOf {startShare endShare : ℚ}
    (hheight : box.coordOrigin = .bottomLeft → 0 < pageHeight) (hshare : startShare ≤ endShare) :
  let flipped := topDownBox box pageHeight
  let strip := topDownBox (stripOf box pageHeight startShare endShare) pageHeight
  strip.left = flipped.left ∧ strip.right = flipped.right ∧
    strip.top = flipped.top + flipped.height * startShare ∧
    strip.bottom = flipped.top + flipped.height * endShare
  := by
  intro flipped strip
  have hnonneg : 0 ≤ flipped.height := sub_nonneg.mpr flipped.top_le
  have horder : flipped.top + flipped.height * startShare ≤
      flipped.top + flipped.height * endShare := by
    have := mul_le_mul_of_nonneg_left hshare hnonneg
    linarith
  have hguard : ¬ (pageHeight ≤ 0 ∧ box.coordOrigin = .bottomLeft) :=
    fun hboth => (hheight hboth.2).not_ge hboth.1
  simp only [strip, stripOf, if_neg hguard, topDownBox_left, topDownBox_right, flipped]
  by_cases horigin : box.coordOrigin = .bottomLeft
  · obtain ⟨htop, hbottom⟩ := @topDownBox_of_bottomLeft box pageHeight _ _ horigin horder
    simp only [if_pos horigin]
    exact ⟨trivial, trivial, htop, hbottom⟩
  · obtain ⟨htop, hbottom⟩ := @topDownBox_of_top box pageHeight _ _ horigin horder
    simp only [if_neg horigin]
    exact ⟨trivial, trivial, htop, hbottom⟩

end

/-- The strips that the pieces of a text take of a box tile it, in the order of the pieces. -/
theorem tiles_strips {heights : PageHeights} {page : ℤ} {box : BoundingBox}
    (hpositive : ∀ height, heights page = some height → 0 < height)
    (hmeasured : Measured heights page box) {points : List ℕ} (hpoints : points.Pairwise (· ≤ ·))
    {total : ℕ} (htotal : 0 < total) (hfirst : points.head? = some 0)
    (hlast : points.getLast? = some total) :
  let height := (heights page).getD 0
  let flipped := topDownBox box height
  Tiles flipped.left flipped.right flipped.top ((between points).map fun stretch =>
    topDownBox (stripOf box height (stretch.1 / total) (stretch.2 / total)) height) flipped.bottom
  := by
  intro height flipped
  have hheight : box.coordOrigin = .bottomLeft → 0 < height := by
    intro horigin
    obtain ⟨known, hknown⟩ := Option.isSome_iff_exists.mp (hmeasured horigin)
    simp only [height, hknown, Option.getD_some]
    exact hpositive known hknown
  have hpos : (0 : ℚ) < total := by exact_mod_cast htotal
  have h := @tiles_between flipped.left flipped.right (fun share => flipped.top + flipped.height * share)
    (points.map fun point : ℕ => (point : ℚ) / total)
    (fun stretch => topDownBox (stripOf box height stretch.1 stretch.2) height)
    (by
      intro stretch hstretch
      rw [between_map] at hstretch
      obtain ⟨⟨first, second⟩, hmem, rfl⟩ := List.mem_map.mp hstretch
      have hle := le_of_mem_between hpoints hmem
      apply topDownBox_stripOf hheight
      have hcast : (first : ℚ) ≤ second := by exact_mod_cast hle
      exact div_le_div_of_nonneg_right hcast hpos.le)
    0 1 (by simp [hfirst]) (by simp [hlast, hpos.ne'])
  rw [between_map, List.map_map] at h
  have htop : flipped.top + flipped.height * 0 = flipped.top := by
    rw [mul_zero, add_zero]
  have hbottom : flipped.top + flipped.height * 1 = flipped.bottom := by
    rw [mul_one, TopDownBox.height, add_sub_cancel]
  rw [htop, hbottom] at h
  exact h

end GRParse.Splitting
