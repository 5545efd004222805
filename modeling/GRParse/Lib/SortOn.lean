import Mathlib.Data.List.Sort

/-!
# Stable sorting by a key

`sortOn key` sorts a list by the keys of its elements and keeps elements with one key in
their order.  So for each key the elements that have it are the same sublist before and
after, and a list sorted by its keys is determined by these sublists.
-/

namespace Sorting

variable {α β κ : Type} [LinearOrder κ]

/-- The list, sorted by the keys of its elements; elements with one key keep their order. -/
def sortOn (key : α → κ) (l : List α) : List α :=
  l.insertionSort fun a b => key a ≤ key b

variable (key : α → κ)

instance isTrans : IsTrans α fun a b => key a ≤ key b := ⟨fun _ _ _ => le_trans⟩

instance total : Std.Total fun a b : α => key a ≤ key b := ⟨fun a b => le_total (key a) (key b)⟩

theorem sortOn_perm (l : List α) :
  (sortOn key l).Perm l
  := List.perm_insertionSort _ l

theorem pairwise_sortOn (l : List α) :
  (sortOn key l).Pairwise fun a b => key a ≤ key b
  := List.pairwise_insertionSort _ l

/-- Of two elements the one with the smaller key is sorted before the other. -/
theorem pair_sublist_sortOn {l : List α} {a b : α} (ha : a ∈ l) (hb : b ∈ l)
    (h : key a < key b) :
  [a, b].Sublist (sortOn key l)
  := by
  have hsorted := pairwise_sortOn key l
  obtain ⟨before, behind, heq⟩ := List.append_of_mem ((sortOn_perm key l).mem_iff.mpr ha)
  have hb := (sortOn_perm key l).mem_iff.mpr hb
  rw [heq] at hsorted hb ⊢
  rcases List.mem_append.mp hb with hbefore | hrest
  · exact absurd ((List.pairwise_append.mp hsorted).2.2 b hbefore a (by simp)) h.not_ge
  · rcases List.mem_cons.mp hrest with rfl | hbehind
    · exact absurd h (lt_irrefl _)
    · exact ((List.singleton_sublist.mpr hbehind).cons_cons a).trans (List.sublist_append_right _ _)

/-- Sorting the images is sorting by the keys of the images. -/
theorem sortOn_map (f : β → α) (l : List β) :
  sortOn key (l.map f) = (sortOn (fun b => key (f b)) l).map f
  := (List.map_insertionSort _ _ f l fun _ _ _ _ => Iff.rfl).symm

/-- A list that is sorted stays as it is. -/
theorem sortOn_eq_self {l : List α} (h : l.Pairwise fun a b => key a ≤ key b) :
  sortOn key l = l
  := h.insertionSort_eq

/-- The elements with one key keep their order. -/
theorem filter_sortOn (k : κ) (l : List α) :
  (sortOn key l).filter (key · = k) = l.filter (key · = k)
  := by
  have hsorted : (l.filter (key · = k)).Pairwise fun a b => key a ≤ key b := by
    apply List.pairwise_of_forall_mem_list
    intro a ha b hb
    simp only [List.mem_filter, decide_eq_true_eq] at ha hb
    rw [ha.2, hb.2]
  have hsublist : (l.filter (key · = k)).Sublist ((sortOn key l).filter (key · = k)) := by
    have h := (List.sublist_insertionSort hsorted List.filter_sublist).filter (key · = k)
    simpa [sortOn] using h
  have hlength := ((sortOn_perm key l).filter (key · = k)).length_eq
  exact (hsublist.eq_of_length hlength.symm).symm

variable {l l' : List α}

/-- Lists that agree on some of their elements agree on those of them in a part. -/
theorem filter_filter_congr {p q : α → Bool} (h : l.filter q = l'.filter q) :
  (l.filter p).filter q = (l'.filter p).filter q
  := by
  rw [List.filter_comm, h, List.filter_comm]

variable {key}

/-- Sorted lists are equal when each key has the same elements in the same order in both. -/
theorem eq_of_filter_eq (hl : l.Pairwise fun a b => key a ≤ key b)
    (hl' : l'.Pairwise fun a b => key a ≤ key b)
    (h : ∀ k, l.filter (key · = k) = l'.filter (key · = k)) :
  l = l'
  := by
  induction l generalizing l' with
  | nil =>
    cases l' with
    | nil => rfl
    | cons b l' => simpa using h (key b)
  | cons a l ih =>
    cases l' with
    | nil => simpa using h (key a)
    | cons b l' =>
      have hkey : key a = key b := by
        apply le_antisymm
        · have hmem : b ∈ a :: l := by
            have hb : b ∈ (b :: l').filter (key · = key b) := by simp
            rw [← h] at hb
            exact List.mem_of_mem_filter hb
          rcases List.mem_cons.mp hmem with rfl | hmem
          · exact le_rfl
          · exact (List.pairwise_cons.mp hl).1 b hmem
        · have hmem : a ∈ b :: l' := by
            have ha : a ∈ (a :: l).filter (key · = key a) := by simp
            rw [h] at ha
            exact List.mem_of_mem_filter ha
          rcases List.mem_cons.mp hmem with rfl | hmem
          · exact le_rfl
          · exact (List.pairwise_cons.mp hl').1 a hmem
      have hhead : a = b := by
        have heq := h (key a)
        rw [List.filter_cons_of_pos (by simp), List.filter_cons_of_pos (by simp [hkey])] at heq
        exact (List.cons.inj heq).1
      subst hhead
      congr 1
      apply ih hl.of_cons hl'.of_cons
      intro k
      have heq := h k
      by_cases hk : key a = k
      · rw [List.filter_cons_of_pos (by simpa using hk),
          List.filter_cons_of_pos (by simpa using hk)] at heq
        exact (List.cons.inj heq).2
      · rwa [List.filter_cons_of_neg (by simpa using hk),
          List.filter_cons_of_neg (by simpa using hk)] at heq

/-- Two lists are sorted into one when each key has the same elements in the same order in
both. -/
theorem sortOn_congr (h : ∀ k, l.filter (key · = k) = l'.filter (key · = k)) :
  sortOn key l = sortOn key l'
  := by
  apply eq_of_filter_eq (pairwise_sortOn key l) (pairwise_sortOn key l')
  intro k
  rw [filter_sortOn, filter_sortOn, h k]

/-- Permuted lists are sorted into one when no two of their elements have one key. -/
theorem sortOn_congr_perm (h : l.Perm l') (hkey : ∀ a ∈ l, ∀ b ∈ l, key a = key b → a = b) :
  sortOn key l = sortOn key l'
  := by
  have hperm := (sortOn_perm key l).trans (h.trans (sortOn_perm key l').symm)
  apply hperm.eq_of_pairwise _ (pairwise_sortOn key l) (pairwise_sortOn key l')
  intro a b ha hb hab hba
  have hb : b ∈ l := h.mem_iff.mpr ((sortOn_perm key l').mem_iff.mp hb)
  exact hkey a ((sortOn_perm key l).mem_iff.mp ha) b hb (le_antisymm hab hba)
/-- With keys that tell the elements apart, permuted lists are sorted into one. -/
theorem sortOn_eq_of_perm {l l' : List κ} (h : l.Perm l') :
  sortOn id l = sortOn id l'
  := by
  have hperm := (sortOn_perm id l).trans (h.trans (sortOn_perm id l').symm)
  exact hperm.eq_of_pairwise (fun _ _ _ _ => le_antisymm) (pairwise_sortOn id l)
    (pairwise_sortOn id l')

end Sorting
