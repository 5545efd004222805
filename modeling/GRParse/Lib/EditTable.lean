import Mathlib.Data.List.Basic
import Mathlib.Order.Bounds.Basic
import Mathlib.Order.MinMax

/-!
# The table of edit distances

The least number of letters to insert, to remove and to change between the beginnings of two texts
fills a table.  Its cells differ from the diagonal at least as much as their coordinates do, and once a
row exceeds a bound all rows below it do.  The last cell is the least number of edits.
-/

namespace EditTable

open List

variable {α : Type} [DecidableEq α]

/-- The cost of changing one letter into another. -/
def mismatch (x y : List α) (i j : ℕ) : ℕ :=
  if x[i]? = y[j]? then 0 else 1

/-- The row below a row of the table. -/
def nextRow (x y : List α) (i : ℕ) (row : ℕ → ℕ) : ℕ → ℕ
  | 0 => i + 1
  | j + 1 => min (min (row (j + 1) + 1) (nextRow x y i row j + 1)) (row j + mismatch x y i j)

/-- The edit distance of the first `i` letters of a text and the first `j` letters of another. -/
def distance (x y : List α) : ℕ → ℕ → ℕ
  | 0 => id
  | i + 1 => nextRow x y i (distance x y i)

variable (x y : List α)

@[simp]
theorem distance_zero (j : ℕ) :
  distance x y 0 j = j
  := rfl

@[simp]
theorem distance_succ_zero (i : ℕ) :
  distance x y (i + 1) 0 = i + 1
  := rfl

theorem distance_succ_succ (i j : ℕ) :
  distance x y (i + 1) (j + 1) =
    min (min (distance x y i (j + 1) + 1) (distance x y (i + 1) j + 1))
      (distance x y i j + mismatch x y i j)
  := rfl

@[simp]
theorem distance_zero_right (i : ℕ) :
  distance x y i 0 = i
  := by
  cases i <;> rfl

/-- Coordinates that differ are that far apart. -/
theorem sub_le_distance (i j : ℕ) :
  i ≤ distance x y i j + j ∧ j ≤ distance x y i j + i
  := by
  induction i generalizing j with
  | zero => simp
  | succ i ih =>
    induction j with
    | zero => simp
    | succ j ihj =>
      have hleft := ih (j + 1)
      have hdiagonal := ih j
      rw [distance_succ_succ]
      omega

/-- The distance does not depend on the order of the texts. -/
theorem distance_comm (i j : ℕ) :
  distance x y i j = distance y x j i
  := by
  have hmismatch (i j : ℕ) : mismatch x y i j = mismatch y x j i := by
    simp only [mismatch, eq_comm]
  induction i generalizing j with
  | zero => simp
  | succ i ih =>
    induction j with
    | zero => simp
    | succ j ihj =>
      rw [distance_succ_succ, distance_succ_succ, ih, ih, ihj, hmismatch,
        min_comm (distance y x (j + 1) i + 1)]

theorem distance_self (i : ℕ) :
  distance x x i i = 0
  := by
  induction i with
  | zero => rfl
  | succ i ih =>
    rw [distance_succ_succ, ih, mismatch, if_pos rfl]
    exact Nat.min_zero _

/-- It is enough to change or to insert one letter after the other. -/
theorem distance_le_max (i j : ℕ) :
  distance x y i j ≤ max i j
  := by
  induction i generalizing j with
  | zero => simp
  | succ i ih =>
    cases j with
    | zero => simp
    | succ j =>
      have hdiagonal := ih j
      have hmismatch : mismatch x y i j ≤ 1 := by
        rw [mismatch]
        split <;> omega
      rw [distance_succ_succ]
      omega

variable {x y}

/-- Texts at no distance have the same letters. -/
theorem eq_of_distance_eq_zero {i j : ℕ} (h : distance x y i j = 0) :
  i = j ∧ ∀ k < i, x[k]? = y[k]?
  := by
  induction i generalizing j with
  | zero =>
    rw [distance_zero] at h
    exact ⟨h.symm, fun k hk => absurd hk (Nat.not_lt_zero k)⟩
  | succ i ih =>
    cases j with
    | zero => simp at h
    | succ j =>
      rw [distance_succ_succ] at h
      have hdiagonal : distance x y i j = 0 := by omega
      have hmismatch : mismatch x y i j = 0 := by omega
      obtain ⟨rfl, hletters⟩ := ih hdiagonal
      refine ⟨rfl, ?_⟩
      intro k hk
      rcases Nat.lt_succ_iff_lt_or_eq.mp hk with hlt | rfl
      · exact hletters k hlt
      · by_contra hne
        rw [mismatch, if_neg hne] at hmismatch
        cases hmismatch

/-- Whole texts are at no distance exactly if they are equal. -/
theorem distance_eq_zero_iff :
  distance x y x.length y.length = 0 ↔ x = y
  := by
  constructor
  · intro h
    obtain ⟨hlength, hletters⟩ := eq_of_distance_eq_zero h
    apply ext_getElem?
    intro k
    rcases Nat.lt_or_ge k x.length with hlt | hge
    · exact hletters k hlt
    · rw [getElem?_eq_none hge, getElem?_eq_none (hlength ▸ hge)]
  · rintro rfl
    exact distance_self x x.length

/-- A row that exceeds a bound is followed by rows that do. -/
theorem lt_distance_succ {limit width i : ℕ} (h : ∀ j ≤ width, limit < distance x y i j) :
  ∀ j ≤ width, limit < distance x y (i + 1) j
  := by
  intro j hj
  induction j with
  | zero =>
    have hfirst := h 0 hj
    rw [distance_zero_right] at hfirst ⊢
    omega
  | succ j ih =>
    have habove := h (j + 1) hj
    have hdiagonal := h j (by omega)
    have hleft := ih (by omega)
    rw [distance_succ_succ]
    omega

theorem lt_distance_of_row {limit width i : ℕ} (h : ∀ j ≤ width, limit < distance x y i j)
    {below : ℕ} (hbelow : i ≤ below) :
  ∀ j ≤ width, limit < distance x y below j
  := by
  induction below, hbelow using Nat.le_induction with
  | base => exact h
  | succ below _ ih => exact lt_distance_succ ih

/-! ### Texts become others by edits -/

/-- One letter is inserted, removed or changed. -/
inductive Edit : List α → List α → Prop
  | insert (u v : List α) (a : α) : Edit (u ++ v) (u ++ a :: v)
  | remove (u v : List α) (a : α) : Edit (u ++ a :: v) (u ++ v)
  | change (u v : List α) (a b : α) : Edit (u ++ a :: v) (u ++ b :: v)

/-- A text becomes another by a number of edits. -/
inductive Edits : ℕ → List α → List α → Prop
  | none (x : List α) : Edits 0 x x
  | edit {n : ℕ} {x y z : List α} : Edit x y → Edits n y z → Edits (n + 1) x z

variable {z : List α} {n : ℕ}

omit [DecidableEq α] in
theorem Edit.append (h : Edit x y) (rest : List α) :
  Edit (x ++ rest) (y ++ rest)
  := by
  cases h with
  | insert u v a => simpa using Edit.insert u (v ++ rest) a
  | remove u v a => simpa using Edit.remove u (v ++ rest) a
  | change u v a b => simpa using Edit.change u (v ++ rest) a b

omit [DecidableEq α] in
theorem Edits.append (h : Edits n x y) (rest : List α) :
  Edits n (x ++ rest) (y ++ rest)
  := by
  induction h with
  | none x => exact Edits.none _
  | edit hfirst _ ih => exact Edits.edit (hfirst.append rest) ih

omit [DecidableEq α] in
theorem Edits.snoc (h : Edits n x y) (hlast : Edit y z) :
  Edits (n + 1) x z
  := by
  induction h with
  | none x => exact Edits.edit hlast (Edits.none _)
  | edit hfirst _ ih => exact Edits.edit hfirst (ih hlast)

/-- The distance of two beginnings is a number of edits from one to the other. -/
theorem edits_distance {i j : ℕ} (hi : i ≤ x.length) (hj : j ≤ y.length) :
  Edits (distance x y i j) (x.take i) (y.take j)
  := by
  have hsnoc (x : List α) {i : ℕ} (hi : i < x.length) : x.take (i + 1) = x.take i ++ [x[i]] :=
    take_succ_eq_append_getElem hi
  induction i generalizing j with
  | zero =>
    induction j with
    | zero => exact Edits.none _
    | succ j ih =>
      have hinsert := Edit.insert (y.take j) [] y[j]
      rw [← hsnoc y hj, append_nil] at hinsert
      exact (ih (by omega)).snoc hinsert
  | succ i ih =>
    have hremove := Edit.remove (x.take i) [] x[i]
    rw [← hsnoc x hi, append_nil] at hremove
    induction j with
    | zero => simpa using Edits.edit hremove (ih (by omega) (Nat.zero_le _))
    | succ j ihj =>
      have hinsert := Edit.insert (y.take j) [] y[j]
      rw [← hsnoc y hj, append_nil] at hinsert
      rw [distance_succ_succ]
      rcases min_choice (min (distance x y i (j + 1) + 1) (distance x y (i + 1) j + 1))
        (distance x y i j + mismatch x y i j) with hmin | hmin
      · rw [hmin]
        rcases min_choice (distance x y i (j + 1) + 1) (distance x y (i + 1) j + 1) with h | h
        · rw [h]
          exact Edits.edit hremove (ih (by omega) hj)
        · rw [h]
          exact (ihj (by omega)).snoc hinsert
      · rw [hmin]
        have hdiagonal := (ih (by omega) (show j ≤ y.length by omega)).append [x[i]]
        rw [← hsnoc x hi] at hdiagonal
        by_cases heq : x[i] = y[j]
        · have hzero : mismatch x y i j = 0 := by
            simp [mismatch, heq, getElem?_eq_getElem hi, getElem?_eq_getElem hj]
          rw [hzero, hsnoc y hj, ← heq]
          exact hdiagonal
        · have hone : mismatch x y i j = 1 := by
            simp [mismatch, heq, getElem?_eq_getElem hi, getElem?_eq_getElem hj]
          rw [hone, hsnoc y hj]
          exact hdiagonal.snoc (Edit.change (y.take j) [] x[i] y[j])

/-- Neighbours in the table differ by one at most. -/
theorem distance_step (x y : List α) (i j : ℕ) :
  distance x y (i + 1) j ≤ distance x y i j + 1 ∧ distance x y i j ≤ distance x y (i + 1) j + 1
  := by
  have hright : ∀ i j, distance x y i (j + 1) ≤ distance x y i j + 1 := by
    intro i j
    cases i with
    | zero => simp
    | succ i =>
      rw [distance_succ_succ]
      omega
  induction j with
  | zero =>
    simp only [distance_zero_right]
    omega
  | succ j ih =>
    have h := hright i j
    rw [distance_succ_succ]
    omega

/-- Texts with the same beginning have the same first rows. -/
theorem distance_congr {x z : List α} (y : List α) {i : ℕ} (h : ∀ k < i, x[k]? = z[k]?) :
  ∀ j, distance x y i j = distance z y i j
  := by
  induction i with
  | zero => exact fun _ => rfl
  | succ i ih =>
    have habove := ih (fun k hk => h k (by omega))
    intro j
    induction j with
    | zero => rfl
    | succ j ihj =>
      rw [distance_succ_succ, distance_succ_succ, habove, habove, ihj, mismatch, mismatch,
        h i (Nat.lt_succ_self _)]

/-- Rows that are above others by one at most stay so while the letters are the same. -/
theorem distance_add_le {x x' : List α} (y : List α) {i i' : ℕ}
    (hrow : ∀ j, distance x y i j ≤ distance x' y i' j + 1)
    (hletters : ∀ k, x[i + k]? = x'[i' + k]?) (k : ℕ) :
  ∀ j, distance x y (i + k) j ≤ distance x' y (i' + k) j + 1
  := by
  induction k with
  | zero => exact hrow
  | succ k ih =>
    intro j
    induction j with
    | zero =>
      have hfirst := ih 0
      simp only [distance_zero_right] at hfirst ⊢
      omega
    | succ j ihj =>
      have habove := ih (j + 1)
      have hdiagonal := ih j
      have hmismatch : mismatch x y (i + k) j = mismatch x' y (i' + k) j := by
        rw [mismatch, mismatch, hletters]
      rw [← Nat.add_assoc, ← Nat.add_assoc, distance_succ_succ, distance_succ_succ, hmismatch]
      rw [← Nat.add_assoc, ← Nat.add_assoc] at ihj
      omega

/-- One edit changes a distance by one at most. -/
theorem Edit.distance_le {x x' : List α} (h : Edit x x') (y : List α) (j : ℕ) :
  distance x y x.length j ≤ distance x' y x'.length j + 1
  := by
  cases h with
  | insert u v a =>
    have hrow (j : ℕ) : distance (u ++ v) y u.length j ≤
        distance (u ++ a :: v) y (u.length + 1) j + 1 := by
      rw [distance_congr (z := u ++ a :: v) y (by grind)]
      exact (distance_step _ y _ j).2
    have hle := distance_add_le y hrow (by grind) v.length j
    simpa [Nat.add_assoc, Nat.add_comm 1] using hle
  | remove u v a =>
    have hrow (j : ℕ) : distance (u ++ a :: v) y (u.length + 1) j ≤
        distance (u ++ v) y u.length j + 1 := by
      rw [distance_congr (x := u ++ v) (z := u ++ a :: v) y (by grind)]
      exact (distance_step _ y _ j).1
    have hle := distance_add_le y hrow (by grind) v.length j
    simpa [Nat.add_assoc, Nat.add_comm 1] using hle
  | change u v a b =>
    have habove := distance_congr (x := u ++ a :: v) (z := u ++ b :: v) y (i := u.length)
      (by grind)
    have hrow (j : ℕ) : distance (u ++ a :: v) y (u.length + 1) j ≤
        distance (u ++ b :: v) y (u.length + 1) j + 1 := by
      induction j with
      | zero => simp
      | succ j ih =>
        have hmismatch : mismatch (u ++ a :: v) y u.length j ≤ 1 := by
          rw [mismatch]
          split <;> omega
        rw [distance_succ_succ, distance_succ_succ, habove, habove]
        omega
    have hle := distance_add_le y hrow (by grind) v.length j
    simpa [Nat.add_assoc, Nat.add_comm 1] using hle

/-- The distance of two texts is the least number of edits from one to the other. -/
theorem distance_isLeast (x y : List α) :
  IsLeast { n | Edits n x y } (distance x y x.length y.length)
  := by
  constructor
  · simpa using edits_distance le_rfl le_rfl
  · rintro n h
    induction h with
    | none x => exact (distance_self x x.length).le
    | edit hfirst _ ih => exact (hfirst.distance_le _ _).trans (Nat.add_le_add_right ih 1)

end EditTable
