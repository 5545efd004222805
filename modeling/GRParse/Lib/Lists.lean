import Mathlib

/-!
# Lists

Facts about lists of which one element is changed, of which parts are filtered out, in which
every element is followed by elements of another kind, and that are read in another order.
-/

namespace Lists

open List

variable {α β : Type}

/-! ### One element changed -/

/-- A change that a reading does not see. -/
theorem map_modify_of_comp {f : α → β} {g : α → α} (h : ∀ a, f (g a) = f a) (l : List α) (i : ℕ) :
  (l.modify i g).map f = l.map f
  := by
  induction l generalizing i with
  | nil => simp
  | cons a l ih => cases i <;> simp [h, ih]

variable {l : List α}

/-- What a change takes from the measure of an element it takes from the sum. -/
theorem sum_map_modify (f : α → ℕ) (g : α → α) {i : ℕ} {a : α} (h : l[i]? = some a) :
  ((l.modify i g).map f).sum + f a = (l.map f).sum + f (g a)
  := by
  induction l generalizing i with
  | nil => simp at h
  | cons b l ih =>
    cases i with
    | zero =>
      obtain rfl : b = a := by simpa using h
      simp
      omega
    | succ i =>
      have := ih (by simpa using h)
      simp
      omega

/-- What a change adds to an element it adds to all of them together. -/
theorem flatMap_modify_perm {f : α → List β} {g : α → α} {extra : List β}
    (hg : ∀ a, (f (g a)).Perm (f a ++ extra)) {i : ℕ} (hi : i < l.length) :
  ((l.modify i g).flatMap f).Perm (l.flatMap f ++ extra)
  := by
  induction l generalizing i with
  | nil => simp at hi
  | cons a l ih =>
    cases i with
    | zero =>
      simp only [modify_zero_cons, flatMap_cons]
      apply ((hg a).append_right _).trans
      rw [append_assoc, append_assoc]
      exact perm_append_comm.append_left _
    | succ i =>
      simp only [modify_succ_cons, flatMap_cons, append_assoc]
      exact (ih (by simpa using hi)).append_left _

/-! ### Elements with their positions -/

theorem nodup_zipIdx (l : List α) :
  l.zipIdx.Nodup
  := by
  apply List.Nodup.of_map Prod.snd
  rw [zipIdx_map_snd]
  exact nodup_range'

/-! ### Parts -/

/-- Two parts with no element in common. -/
theorem filter_append_filter_perm {p q : α → Bool} (h : ∀ a ∈ l, p a → q a = false) :
  (l.filter p ++ l.filter q).Perm (l.filter fun a => p a || q a)
  := by
  have hp : (l.filter fun a => p a || q a).filter p = l.filter p := by
    rw [filter_filter]
    exact filter_congr fun a _ => by cases p a <;> simp
  have hq : (l.filter fun a => p a || q a).filter (fun a => !p a) = l.filter q := by
    rw [filter_filter]
    apply filter_congr
    intro a ha
    cases hpa : p a
    · simp
    · simp [h a ha hpa]
  have hsplit := filter_append_perm p (l.filter fun a => p a || q a)
  rwa [hp, hq] at hsplit

/-- The elements that have a key, listed key by key. -/
theorem flatMap_filter_perm [DecidableEq β] (key : α → Option β) {keys : List β}
    (hkeys : keys.Nodup) (l : List α) :
  (keys.flatMap fun b => l.filter (key · = some b)).Perm
    (l.filter fun a => (key a).any (· ∈ keys))
  := by
  induction keys with
  | nil => simp
  | cons b keys ih =>
    obtain ⟨hb, hkeys⟩ := nodup_cons.mp hkeys
    rw [flatMap_cons]
    refine ((ih hkeys).append_left _).trans ?_
    refine (filter_append_filter_perm ?_).trans (List.Perm.of_eq ?_)
    · intro a _ ha
      simp [of_decide_eq_true ha, hb]
    · apply filter_congr
      intro a _
      cases key a <;> simp

/-- The elements listed under one key. -/
theorem flatMap_pick [DecidableEq β] {keys : List β} (hkeys : keys.Nodup) {b : β} (hb : b ∈ keys)
    (l : List α) :
  (keys.flatMap fun b' => if b' = b then l else []) = l
  := by
  induction keys with
  | nil => simp at hb
  | cons b' keys ih =>
    obtain ⟨hb', hkeys⟩ := nodup_cons.mp hkeys
    rw [flatMap_cons]
    rcases mem_cons.mp hb with rfl | hb
    · have hrest : (keys.flatMap fun b' => if b' = b then l else []) = [] := by
        rw [flatMap_eq_nil_iff]
        intro other hother
        apply if_neg
        rintro rfl
        exact hb' hother
      rw [if_pos rfl, hrest, append_nil]
    · have hne : b' ≠ b := by
        rintro rfl
        exact hb' hb
      rw [if_neg hne, nil_append, ih hkeys hb]

/-! ### Elements with followers -/

/-- A part that takes no followers. -/
theorem filter_flatMap_cons_left {p : α → Bool} {f : α → List α}
    (h : ∀ a ∈ l, ∀ b ∈ f a, p b = false) :
  (l.flatMap fun a => a :: f a).filter p = l.filter p
  := by
  induction l with
  | nil => rfl
  | cons a l ih =>
    have hnone : (f a).filter p = [] := by
      rw [filter_eq_nil_iff]
      exact fun b hb => by simp [h a (by simp) b hb]
    rw [flatMap_cons, cons_append, filter_cons, filter_append, hnone,
      nil_append, ih fun b hb => h b (mem_cons_of_mem _ hb), filter_cons]

/-- A part that takes followers only. -/
theorem filter_flatMap_cons_right {p : α → Bool} {f : α → List α} (h : ∀ a ∈ l, p a = false) :
  (l.flatMap fun a => a :: f a).filter p = l.flatMap fun a => (f a).filter p
  := by
  induction l with
  | nil => rfl
  | cons a l ih =>
    rw [flatMap_cons, flatMap_cons, cons_append, filter_cons,
      if_neg (by simp [h a (by simp)]), filter_append,
      ih fun b hb => h b (mem_cons_of_mem _ hb)]

/-- Followers are told apart from what they follow, so the list determines them. -/
theorem eq_of_flatMap_cons_eq {p : α → Bool} {f g : α → List α} (hl : ∀ a ∈ l, p a = false)
    (hf : ∀ a ∈ l, ∀ b ∈ f a, p b) (hg : ∀ a ∈ l, ∀ b ∈ g a, p b)
    (h : (l.flatMap fun a => a :: f a) = l.flatMap fun a => a :: g a) :
  ∀ a ∈ l, f a = g a
  := by
  induction l with
  | nil => simp
  | cons a l ih =>
    have hstop : ∀ (k : α → List α), ((l.flatMap fun a => a :: k a).takeWhile p) = [] := by
      intro k
      cases l with
      | nil => rfl
      | cons b l => simp [hl b (by simp)]
    have htake : ∀ (k : α → List α), (∀ b ∈ k a, p b) →
        ((k a ++ l.flatMap fun a => a :: k a).takeWhile p) = k a := by
      intro k hk
      rw [takeWhile_append_of_pos hk, hstop, append_nil]
    simp only [flatMap_cons, cons_append, cons.injEq, true_and] at h
    have heq : f a = g a := by
      rw [← htake f (hf a (by simp)), h, htake g (hg a (by simp))]
    have hrest := ih (fun b hb => hl b (mem_cons_of_mem _ hb))
      (fun b hb => hf b (mem_cons_of_mem _ hb))
      (fun b hb => hg b (mem_cons_of_mem _ hb))
      (append_cancel_left (heq ▸ h))
    intro b hb
    rcases mem_cons.mp hb with rfl | hb
    · exact heq
    · exact hrest b hb

/-! ### Positions in another order -/

section

variable {l : List α} {order : List ℕ} (hlt : ∀ position ∈ order, position < l.length)
include hlt

theorem length_filterMap_positions :
  (order.filterMap (l[·]?)).length = order.length
  := by
  induction order with
  | nil => rfl
  | cons position order ih =>
    rw [filterMap_cons_some (getElem?_eq_getElem (hlt position (by simp))),
      length_cons, length_cons,
      ih fun other hother => hlt other (mem_cons_of_mem _ hother)]

theorem getElem?_filterMap_positions (index : ℕ) :
  (order.filterMap (l[·]?))[index]? = order[index]?.bind (l[·]?)
  := by
  induction order generalizing index with
  | nil => rfl
  | cons position order ih =>
    have hsome := getElem?_eq_getElem (hlt position (by simp))
    rw [filterMap_cons_some hsome]
    cases index with
    | zero => simp
    | succ index =>
      simpa using ih (fun other hother => hlt other (mem_cons_of_mem _ hother)) index

end

theorem filterMap_positions_range (l : List α) :
  (List.range l.length).filterMap (l[·]?) = l
  := by
  apply ext_getElem?
  intro index
  rw [getElem?_filterMap_positions (by simp)]
  by_cases h : index < l.length
  · simp [h]
  · rw [getElem?_eq_none (by simpa using h), getElem?_eq_none (by simpa using h)]
    rfl

theorem map_range_getD (order : List ℕ) :
  (List.range order.length).map (fun index => order.getD index index) = order
  := by
  apply ext_getElem (by simp)
  intro index _ hindex
  simp [hindex]

/-- The positions of a list in another order, and all others as they are. -/
theorem getD_injective {order : List ℕ} (hnodup : order.Nodup)
    (hlt : ∀ position ∈ order, position < order.length) :
  Function.Injective fun index => order.getD index index
  := by
  intro i j (h : order.getD i i = order.getD j j)
  have hinside : ∀ i, order.getD i i < order.length ↔ i < order.length := by
    intro i
    by_cases hi : i < order.length
    · simpa [hi] using hlt _ (getElem_mem hi)
    · simp [hi]
  have hiff : i < order.length ↔ j < order.length := by
    rw [← hinside i, ← hinside j, h]
  by_cases hi : i < order.length
  · have hj := hiff.mp hi
    exact hnodup.getElem_inj_iff.mp (by simpa [hi, hj] using h)
  · have hj := mt hiff.mpr hi
    rwa [getD_eq_getElem?_getD, getD_eq_getElem?_getD,
      getElem?_eq_none (not_lt.mp hi), getElem?_eq_none (not_lt.mp hj)] at h

end Lists

/-!
## The first offer wins

A state is read for a value.  A step leaves a value that is there, and otherwise takes what the step
offers.  After any steps the value is the one the state began with, or else the first one offered.
-/

namespace FirstWins

variable {σ ω ν : Type} {read : σ → Option ν} {step : σ → ω → σ} {offer : ω → Option ν}

theorem read_foldl (hstep : ∀ state one, read (step state one) = (read state).or (offer one))
    (offers : List ω) (state : σ) :
  read (offers.foldl step state) = (read state).or (offers.findSome? offer)
  := by
  induction offers generalizing state with
  | nil => simp
  | cons first rest ih =>
    rw [List.foldl_cons, ih, hstep, Option.or_assoc, List.findSome?_cons]
    cases offer first <;> rfl

end FirstWins
