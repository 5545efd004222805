import Mathlib

/-!
# Stretches

Bounds in order cut a range into the stretches between neighbours.  Each value of the range is in one
stretch, and a list is put together again from its slices.
-/

namespace Stretches

open List

section

variable {α β : Type}

/-- The stretches between neighbouring bounds. -/
def between (bounds : List α) : List (α × α) :=
  bounds.zip bounds.tail

@[simp]
theorem between_cons_cons (first second : α) (bounds : List α) :
  between (first :: second :: bounds) = (first, second) :: between (second :: bounds)
  := rfl

theorem between_map (f : α → β) (bounds : List α) :
  between (bounds.map f) = (between bounds).map (Prod.map f f)
  := by
  rw [between, between, ← map_tail, zip_map]

/-- A stretch starts and stops at bounds. -/
theorem mem_of_mem_between {bounds : List α} {stretch : α × α} (h : stretch ∈ between bounds) :
  stretch.1 ∈ bounds ∧ stretch.2 ∈ bounds
  := by
  obtain ⟨hfirst, hsecond⟩ := of_mem_zip h
  exact ⟨hfirst, mem_of_mem_tail hsecond⟩

theorem length_between (bounds : List α) :
  (between bounds).length = bounds.length - 1
  := by
  rw [between, length_zip, length_tail]
  omega

end

section

variable {α : Type} [LinearOrder α] {bounds : List α}

/-- A stretch of bounds in order does not stop before it starts. -/
theorem le_of_mem_between (h : bounds.Pairwise (· ≤ ·)) {stretch : α × α}
    (hmem : stretch ∈ between bounds) :
  stretch.1 ≤ stretch.2
  := by
  induction bounds with
  | nil => cases hmem
  | cons first bounds ih =>
    obtain ⟨hfirst, hbounds⟩ := pairwise_cons.mp h
    cases bounds with
    | nil => cases hmem
    | cons second bounds =>
      rw [between_cons_cons] at hmem
      rcases mem_cons.mp hmem with rfl | hmem
      · exact hfirst second mem_cons_self
      · exact ih hbounds hmem

/-- A value is in a stretch. -/
def Within (value : α) (stretch : α × α) : Prop :=
  stretch.1 ≤ value ∧ value < stretch.2

instance (value : α) (stretch : α × α) : Decidable (Within value stretch) :=
  inferInstanceAs (Decidable (_ ∧ _))

/-- Each value from the first bound on and before the last is in exactly one stretch. -/
theorem existsUnique_within (h : bounds.Pairwise (· ≤ ·)) {first last value : α}
    (hfirst : bounds.head? = some first) (hlast : bounds.getLast? = some last)
    (hle : first ≤ value) (hlt : value < last) :
  ∃! i : ℕ, ∃ stretch, (between bounds)[i]? = some stretch ∧ Within value stretch
  := by
  induction bounds generalizing first with
  | nil => cases hfirst
  | cons start bounds ih =>
    obtain rfl := Option.some.inj hfirst
    obtain ⟨-, hbounds⟩ := pairwise_cons.mp h
    cases bounds with
    | nil =>
      obtain rfl := Option.some.inj hlast
      exact absurd hlt hle.not_gt
    | cons second bounds =>
      rw [between_cons_cons]
      rcases lt_or_ge value second with hvalue | hvalue
      · refine ⟨0, ⟨_, rfl, hle, hvalue⟩, ?_⟩
        rintro (_ | i) ⟨stretch, hstretch, hwithin⟩
        · rfl
        · rw [getElem?_cons_succ] at hstretch
          have hmem := (mem_of_mem_between (mem_of_getElem? hstretch)).1
          have hsecond : second ≤ stretch.1 := by
            rcases mem_cons.mp hmem with hmem | hmem
            · exact le_of_eq hmem.symm
            · exact (pairwise_cons.mp hbounds).1 _ hmem
          exact absurd (hvalue.trans_le hsecond) hwithin.1.not_gt
      · rw [getLast?_cons_cons] at hlast
        obtain ⟨i, hi, hunique⟩ := ih hbounds rfl hlast hvalue
        refine ⟨i + 1, hi, ?_⟩
        rintro (_ | j) ⟨stretch, hstretch, hwithin⟩
        · obtain rfl := Option.some.inj hstretch
          exact absurd hwithin.2 hvalue.not_gt
        · rw [hunique j ⟨stretch, hstretch, hwithin⟩]

end

section

variable {β : Type}

/-- The part of a list in a stretch of positions. -/
def slice (list : List β) (stretch : ℕ × ℕ) : List β :=
  (list.drop stretch.1).take (stretch.2 - stretch.1)

theorem slice_append_slice (list : List β) {first second third : ℕ} (h : first ≤ second)
    (h' : second ≤ third) :
  slice list (first, second) ++ slice list (second, third) = slice list (first, third)
  := by
  have hdrop : list.drop second = (list.drop first).drop (second - first) := by
    rw [drop_drop, Nat.add_sub_cancel' h]
  have hadd : third - first = (second - first) + (third - second) := by omega
  rw [slice, slice, slice, hdrop, hadd, take_add]

/-- The slices of a list make up the slice from the first bound to the last. -/
theorem flatten_slices (list : List β) {bounds : List ℕ} (h : bounds.Pairwise (· ≤ ·))
    {first last : ℕ} (hfirst : bounds.head? = some first) (hlast : bounds.getLast? = some last) :
  ((between bounds).map (slice list)).flatten = slice list (first, last)
  := by
  induction bounds generalizing first with
  | nil => cases hfirst
  | cons start bounds ih =>
    obtain rfl := Option.some.inj hfirst
    obtain ⟨hstart, hbounds⟩ := pairwise_cons.mp h
    cases bounds with
    | nil =>
      obtain rfl := Option.some.inj hlast
      simp [between, slice]
    | cons second bounds =>
      rw [getLast?_cons_cons] at hlast
      have hle : second ≤ last := by
        have hmem := mem_of_getLast? hlast
        rcases mem_cons.mp hmem with hmem | hmem
        · exact Nat.le_of_eq hmem.symm
        · exact (pairwise_cons.mp hbounds).1 _ hmem
      rw [between_cons_cons, map_cons, flatten_cons, ih hbounds rfl hlast]
      exact slice_append_slice list (hstart second mem_cons_self) hle

end

end Stretches

/-!
## Stretches of one key

Every element of a list has a key.  The list falls into the longest stretches of neighbours of one
key, and an element added at the end joins the last stretch or starts one.
-/

namespace KeyedStretches

variable {α κ : Type} [DecidableEq κ] (key : α → κ)

/-- The longest stretches of neighbours of one key. -/
def stretches (list : List α) : List (List α) :=
  list.splitBy (fun left right => key left = key right)

@[simp]
theorem flatten_stretches (list : List α) :
  (stretches key list).flatten = list
  := List.flatten_splitBy _ list

variable {key}

theorem ne_nil_of_mem_stretches {list stretch : List α} (h : stretch ∈ stretches key list) :
  stretch ≠ []
  := List.ne_nil_of_mem_splitBy h

/-- The elements of a stretch have one key. -/
theorem key_eq_of_mem_stretches {list stretch : List α} (h : stretch ∈ stretches key list) :
  ∀ left ∈ stretch, ∀ right ∈ stretch, key left = key right
  := by
  have hchain := (List.isChain_of_mem_splitBy h).imp (S := fun left right => key left = key right)
    (fun _ _ hkey => of_decide_eq_true hkey)
  have : IsTrans α (fun left right => key left = key right) := ⟨fun _ _ _ => Eq.trans⟩
  have : Std.Symm (fun left right => key left = key right) := ⟨fun _ _ => Eq.symm⟩
  have hpairwise := List.isChain_iff_pairwise.mp hchain
  apply hpairwise.forall_of_forall
  intro _ _
  rfl

/-- An element of another key starts a stretch. -/
theorem stretches_concat_of_ne {list : List α} {last : α}
    (h : ∀ element ∈ list.getLast?, key element ≠ key last) :
  stretches key (list ++ [last]) = stretches key list ++ [[last]]
  := by
  apply List.splitBy_append_cons
  intro element hmem
  exact decide_eq_false (h element hmem)

/-- An element of the key of the last stretch joins it. -/
theorem stretches_concat_of_eq {list : List α} {last : α} {before : List (List α)}
    {stretch : List α} (h : stretches key list = before ++ [stretch])
    (hkey : ∀ element ∈ stretch, key element = key last) :
  stretches key (list ++ [last]) = before ++ [stretch ++ [last]]
  := by
  have hne : stretch ≠ [] := ne_nil_of_mem_stretches (h ▸ List.mem_concat_self)
  obtain ⟨hflatten, hnil, hchain, hborders⟩ := List.splitBy_eq_iff.mp h
  apply List.splitBy_eq_iff.mpr
  refine ⟨by simp [hflatten], by simpa using fun hmem => hnil (by simp [hmem]), ?_, ?_⟩
  · intro group hmem
    rcases List.mem_append.mp hmem with hmem | hmem
    · exact hchain group (List.mem_append_left _ hmem)
    · obtain rfl := List.mem_singleton.mp hmem
      apply (hchain stretch List.mem_concat_self).append (List.IsChain.singleton last)
      intro element helement other hother
      obtain rfl := Option.some.inj hother
      exact decide_eq_true (hkey element (List.mem_of_getLast? helement))
  · rw [List.isChain_append] at hborders ⊢
    refine ⟨hborders.1, List.IsChain.singleton _, ?_⟩
    rintro group hgroup other hother
    obtain rfl := Option.some.inj hother
    obtain ⟨hleft, hright, hborder⟩ := hborders.2.2 group hgroup stretch rfl
    use hleft, List.concat_ne_nil _ _
    rwa [List.head_append_of_ne_nil hright]

end KeyedStretches
