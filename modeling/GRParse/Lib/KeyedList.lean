import Mathlib.Data.Nat.Count

/-!
# Texts with positions taken out

Some positions of a text are kept, the others taken out.  A position of the text lands, in what
is left of it, on the number of kept positions before it.
-/

namespace Kept

open List

variable {α : Type}

/-- What is left of the text that begins at the given position. -/
def keepFrom (keep : ℕ → Bool) (position : ℕ) : List α → List α
  | [] => []
  | a :: text =>
    if keep position then a :: keepFrom keep (position + 1) text
    else keepFrom keep (position + 1) text

/-- The part of a text between two positions. -/
def slice (start stop : ℕ) (text : List α) : List α :=
  (text.drop start).take (stop - start)

variable (keep : ℕ → Bool) (position : ℕ)

theorem keepFrom_append (front back : List α) :
  keepFrom keep position (front ++ back) =
    keepFrom keep position front ++ keepFrom keep (position + front.length) back
  := by
  induction front generalizing position with
  | nil => rfl
  | cons a front ih =>
    rw [cons_append, keepFrom, keepFrom, ih, length_cons, Nat.add_assoc, Nat.add_comm 1]
    split <;> rfl

/-- What is left is as long as the kept positions are many. -/
theorem count_add_length_keepFrom (text : List α) :
  Nat.count (keep ·) position + (keepFrom keep position text).length =
    Nat.count (keep ·) (position + text.length)
  := by
  induction text generalizing position with
  | nil => rfl
  | cons a text ih =>
    have hnext := ih (position + 1)
    rw [Nat.count_succ] at hnext
    rw [keepFrom, length_cons, Nat.add_comm text.length, ← Nat.add_assoc, ← hnext]
    split
    · rw [length_cons, Nat.add_assoc, Nat.add_comm 1]
    · rfl

variable {text : List α}

/-- The part of what is left between where two positions land is what is left of the part between
them. -/
theorem slice_keepFrom {start stop : ℕ} (hle : start ≤ stop) (hstop : stop ≤ text.length) :
  slice (Nat.count (keep ·) start) (Nat.count (keep ·) stop) (keepFrom keep 0 text) =
    keepFrom keep start (slice start stop text)
  := by
  obtain ⟨front, rest, rfl, hfront⟩ : ∃ front rest, text = front ++ rest ∧ front.length = start :=
    ⟨text.take start, text.drop start, (take_append_drop start text).symm, by simp; omega⟩
  obtain ⟨part, back, rfl, hpart⟩ : ∃ part back, rest = part ++ back ∧
      part.length = stop - start := by
    refine ⟨rest.take (stop - start), rest.drop (stop - start),
      (take_append_drop (stop - start) rest).symm, ?_⟩
    rw [length_append] at hstop
    rw [length_take]
    omega
  have hcountFront : (keepFrom keep 0 front).length = Nat.count (keep ·) start := by
    have h := count_add_length_keepFrom keep 0 front
    rw [Nat.count_zero, Nat.zero_add, Nat.zero_add, hfront] at h
    exact h
  have hcountPart : (keepFrom keep start part).length =
      Nat.count (keep ·) stop - Nat.count (keep ·) start := by
    have h := count_add_length_keepFrom keep start part
    rw [hpart, Nat.add_sub_cancel' hle] at h
    omega
  rw [slice, slice, keepFrom_append, keepFrom_append, Nat.zero_add, hfront, ← hcountFront,
    drop_left, hcountFront, ← hcountPart, take_left, ← hfront, drop_left, hfront,
    ← hpart, take_left]

/-- What is left depends on the kept positions of the text only. -/
theorem keepFrom_congr {keep keep' : ℕ → Bool} {position : ℕ}
    (h : ∀ i, position ≤ i → i < position + text.length → keep i = keep' i) :
  keepFrom keep position text = keepFrom keep' position text
  := by
  induction text generalizing position with
  | nil => rfl
  | cons a text ih =>
    rw [length_cons] at h
    rw [keepFrom, keepFrom, h position le_rfl (by omega),
      ih fun i hi hlt => h i (by omega) (by omega)]

theorem keepFrom_all (h : ∀ i, position ≤ i → i < position + text.length → keep i) :
  keepFrom keep position text = text
  := by
  induction text generalizing position with
  | nil => rfl
  | cons a text ih =>
    rw [length_cons] at h
    rw [keepFrom, if_pos (h position le_rfl (by omega)),
      ih _ fun i hi hlt => h i (by omega) (by omega)]

theorem keepFrom_none (h : ∀ i, position ≤ i → i < position + text.length → keep i = false) :
  keepFrom keep position text = []
  := by
  induction text generalizing position with
  | nil => rfl
  | cons a text ih =>
    rw [length_cons] at h
    rw [keepFrom, h position le_rfl (by omega), if_neg Bool.false_ne_true,
      ih _ fun i hi hlt => h i (by omega) (by omega)]

end Kept

/-!
## Lists with keys

A list whose elements have keys, no two of them the same, is looked up by an index from keys to
places.  What is done at the place of a key is done to the element with this key, and what is
left when the places of some keys are taken out are the elements with other keys.
-/

namespace KeyedList

variable {α κ : Type} [DecidableEq κ] (key : α → κ)

/-- The place of the first element with a key. -/
def indexAt (l : List α) (k : κ) : Option ℕ :=
  l.findIdx? fun a => key a = k

variable {key}

/-- The index depends on the keys alone. -/
theorem indexAt_congr {l l' : List α} (h : l.map key = l'.map key) (k : κ) :
  indexAt key l k = indexAt key l' k
  := by
  have hmap : ∀ l : List α, indexAt key l k = (l.map key).findIdx? (· = k) := by
    intro l
    rw [indexAt, List.findIdx?_map]
    rfl
  rw [hmap, hmap, h]

variable {l : List α}

theorem indexAt_eq_none {k : κ} :
  indexAt key l k = none ↔ ∀ a ∈ l, key a ≠ k
  := by
  simp [indexAt]

/-- Where no two keys are the same, the place of a key is the one that holds it. -/
theorem indexAt_eq_some (hnodup : (l.map key).Nodup) {k : κ} {i : ℕ} :
  indexAt key l k = some i ↔ ∃ a, l[i]? = some a ∧ key a = k
  := by
  constructor
  · intro h
    obtain ⟨hi, hkey, -⟩ := List.findIdx?_eq_some_iff_getElem.mp h
    exact ⟨l[i], List.getElem?_eq_getElem hi, by simpa using hkey⟩
  · rintro ⟨a, ha, rfl⟩
    obtain ⟨hi, rfl⟩ := List.getElem?_eq_some_iff.mp ha
    apply List.findIdx?_eq_some_iff_getElem.mpr
    refine ⟨hi, by simp, ?_⟩
    intro j hj
    have hi' : i < (l.map key).length := by rwa [List.length_map]
    have hj' : j < (l.map key).length := hj.trans hi'
    have hne : (l.map key)[j] ≠ (l.map key)[i] := by
      rw [Ne, hnodup.getElem_inj_iff]
      omega
    simpa using hne

/-- What is done at the place of a key is done to the element that has it. -/
theorem modify_indexAt (hnodup : (l.map key).Nodup) {k : κ} {i : ℕ}
    (h : indexAt key l k = some i) (f : α → α) :
  l.modify i f = l.map fun a => if key a = k then f a else a
  := by
  apply List.ext_getElem?
  intro j
  rw [List.getElem?_modify, List.getElem?_map]
  cases ha : l[j]? with
  | none => rfl
  | some a =>
    have hj : key a = k ↔ i = j := by
      constructor
      · intro hkey
        have hplace := (indexAt_eq_some hnodup).mpr ⟨a, ha, hkey⟩
        exact Option.some.inj (h.symm.trans hplace)
      · rintro rfl
        obtain ⟨b, hb, hkey⟩ := (indexAt_eq_some hnodup).mp h
        rwa [Option.some.inj (ha.symm.trans hb)]
    simp only [Option.map_some, hj]
    split <;> rfl

theorem map_of_indexAt_eq_none {k : κ} (h : indexAt key l k = none) (f : α → α) :
  (l.map fun a => if key a = k then f a else a) = l
  := by
  have hid : ∀ a ∈ l, (if key a = k then f a else a) = id a := by
    intro a ha
    exact if_neg (indexAt_eq_none.mp h a ha)
  rw [List.map_congr_left hid, List.map_id]

/-- Taking places out by what they hold. -/
theorem keepFrom_eq_filter {keep : ℕ → Bool} {p : α → Bool} : ∀ {l : List α} {position : ℕ},
    (∀ i a, l[i]? = some a → keep (position + i) = p a) →
  Kept.keepFrom keep position l = l.filter p
  | [], _, _ => rfl
  | a :: l, position, h => by
    have htail : Kept.keepFrom keep (position + 1) l = l.filter p := by
      apply keepFrom_eq_filter
      intro i b hb
      rw [Nat.add_assoc, Nat.add_comm 1]
      exact h (i + 1) b hb
    have ha : keep position = p a := h 0 a rfl
    rw [Kept.keepFrom, List.filter_cons, htail, ha]

/-- Without the places of some keys the elements with other keys are left. -/
theorem keepFrom_indexAt (hnodup : (l.map key).Nodup) (keys : List κ) :
  Kept.keepFrom (fun i => decide (i ∉ keys.filterMap (indexAt key l))) 0 l
    = l.filter fun a => key a ∉ keys
  := by
  apply keepFrom_eq_filter
  intro i a ha
  rw [Nat.zero_add, decide_eq_decide, not_iff_not, List.mem_filterMap]
  constructor
  · rintro ⟨k, hk, hplace⟩
    obtain ⟨b, hb, rfl⟩ := (indexAt_eq_some hnodup).mp hplace
    rwa [Option.some.inj (ha.symm.trans hb)]
  · intro hk
    exact ⟨key a, hk, (indexAt_eq_some hnodup).mpr ⟨a, ha, rfl⟩⟩

end KeyedList
