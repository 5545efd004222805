import Mathlib

/-!
# Sorted maps

A map from keys of a linear order, kept as the list of its entries in the order of their
keys.  Whoever goes through the map sees the entries in that order.  A measure of the values adds
up over the map.
-/

namespace Containers

open List

variable {κ α : Type} [LinearOrder κ]

/-- A map whose entries are sorted by their keys, no two under one key. -/
structure SortedMap (κ α : Type) [LinearOrder κ] where
  entries : List (κ × α) := []
  sorted : (entries.map Prod.fst).Pairwise (· < ·) := by simp

namespace SortedMap

/-- The keys of the map, in order. -/
def keys (map : SortedMap κ α) : List κ :=
  map.entries.map Prod.fst

/-- The value under a key. -/
def find (map : SortedMap κ α) (key : κ) : Option α :=
  (map.entries.find? fun entry => entry.1 = key).map Prod.snd

theorem find_isSome (map : SortedMap κ α) (key : κ) :
  (map.find key).isSome ↔ key ∈ map.keys
  := by
  simp [find, keys]

variable {map : SortedMap κ α} {key : κ}

theorem exists_find (h : key ∈ map.keys) :
  ∃ value, map.find key = some value
  := Option.isSome_iff_exists.mp ((find_isSome map key).mpr h)

theorem find_eq_none (map : SortedMap κ α) (key : κ) :
  map.find key = none ↔ key ∉ map.keys
  := by
  rw [← find_isSome, Option.not_isSome_iff_eq_none]

/-! ### Changing a value -/

/-- The map with the value under a key changed. -/
def modify (map : SortedMap κ α) (key : κ) (f : α → α) : SortedMap κ α where
  entries := map.entries.map fun entry => if entry.1 = key then (entry.1, f entry.2) else entry
  sorted := by
    have hkeys : (map.entries.map fun entry =>
        if entry.1 = key then (entry.1, f entry.2) else entry).map Prod.fst =
          map.entries.map Prod.fst := by
      rw [List.map_map]
      apply List.map_congr_left
      intro entry _
      simp only [Function.comp_apply]
      split <;> rfl
    rw [hkeys]
    exact map.sorted

@[simp]
theorem keys_modify (map : SortedMap κ α) (key : κ) (f : α → α) :
  (map.modify key f).keys = map.keys
  := by
  simp only [keys, modify, map_map]
  apply map_congr_left
  intro entry _
  simp only [Function.comp_apply]
  split <;> rfl

@[simp]
theorem find_modify (map : SortedMap κ α) (key : κ) (f : α → α) (other : κ) :
  (map.modify key f).find other
    = if other = key then (map.find key).map f else map.find other
  := by
  simp only [find, modify]
  induction map.entries with
  | nil => simp
  | cons entry entries ih =>
    simp only [map_cons, find?_cons]
    by_cases hentry : entry.1 = key
    · by_cases hother : other = key
      · simp [hentry, hother]
      · have hne : ¬ key = other := fun h => hother h.symm
        simpa [hentry, hother, hne] using ih
    · by_cases hother : other = key
      · subst hother
        simpa [hentry] using ih
      · by_cases hthis : entry.1 = other
        · simp [hthis, hother]
        · simpa [hentry, hthis, hother] using ih

/-! ### A new key -/

/-- An entry is put behind the entries of smaller keys. -/
def place (key : κ) (value : α) : List (κ × α) → List (κ × α)
  | [] => [(key, value)]
  | entry :: entries =>
    if key < entry.1 then (key, value) :: entry :: entries
    else if key = entry.1 then entry :: entries
    else entry :: place key value entries

theorem mem_map_place (key : κ) (value : α) (entries : List (κ × α)) (other : κ) :
  other ∈ (place key value entries).map Prod.fst ↔ other = key ∨ other ∈ entries.map Prod.fst
  := by
  induction entries with
  | nil => simp [place]
  | cons entry entries ih =>
    rw [place]
    split
    · rw [map_cons, mem_cons]
    · split
      next heq =>
        rw [map_cons, mem_cons, heq]
        tauto
      next =>
        rw [map_cons, mem_cons, ih, map_cons, mem_cons]
        tauto

theorem pairwise_place (key : κ) (value : α) {entries : List (κ × α)}
    (h : (entries.map Prod.fst).Pairwise (· < ·)) :
  ((place key value entries).map Prod.fst).Pairwise (· < ·)
  := by
  induction entries with
  | nil => simp [place]
  | cons entry entries ih =>
    obtain ⟨hhead, htail⟩ := pairwise_cons.mp h
    rw [place]
    split
    next hlt =>
      rw [map_cons, pairwise_cons]
      refine ⟨fun other hother => ?_, h⟩
      obtain rfl | hother := mem_cons.mp hother
      · exact hlt
      · exact lt_trans hlt (hhead other hother)
    next hge =>
      split
      · exact h
      next hne =>
        rw [map_cons, pairwise_cons]
        refine ⟨fun other hother => ?_, ih htail⟩
        obtain rfl | hother := (mem_map_place ..).mp hother
        · exact lt_of_le_of_ne (not_lt.mp hge) (Ne.symm hne)
        · exact hhead other hother

/-- `emplace`: the map with a value under a key it lacks.  A key it has keeps its value. -/
def emplace (map : SortedMap κ α) (key : κ) (value : α) : SortedMap κ α where
  entries := place key value map.entries
  sorted := pairwise_place key value map.sorted

@[simp]
theorem mem_keys_emplace (map : SortedMap κ α) (key : κ) (value : α) (other : κ) :
  other ∈ (map.emplace key value).keys ↔ other = key ∨ other ∈ map.keys
  := mem_map_place key value map.entries other

theorem find_emplace (h : key ∉ map.keys) (value : α) (other : κ) :
  (map.emplace key value).find other = if other = key then some value else map.find other
  := by
  obtain ⟨entries, sorted⟩ := map
  simp only [keys] at h
  simp only [find, emplace]
  clear sorted
  induction entries with
  | nil =>
    simp only [place, find?_cons, find?_nil]
    by_cases hother : other = key
    · simp [hother]
    · simp [hother, Ne.symm hother]
  | cons entry entries ih =>
    rw [map_cons, mem_cons, not_or] at h
    rw [place]
    split
    · by_cases hother : other = key
      · simp [hother]
      · simp [hother, find?_cons, Ne.symm hother]
    · rw [if_neg h.1]
      rw [find?_cons, find?_cons]
      by_cases hthis : entry.1 = other
      · have hother : ¬ other = key := fun heq => h.1 (by rw [hthis, heq])
        simp [hthis, hother]
      · simpa [hthis] using ih h.2

/-! ### Dropping a key -/

/-- The map without a key. -/
def erase (map : SortedMap κ α) (key : κ) : SortedMap κ α where
  entries := map.entries.filter fun entry => entry.1 ≠ key
  sorted := by
    have hkeys : (map.entries.filter fun entry => entry.1 ≠ key).map Prod.fst =
        (map.entries.map Prod.fst).filter (· ≠ key) := by
      rw [List.filter_map]
      rfl
    rw [hkeys]
    exact map.sorted.filter _

/-! ### Totals -/

/-- What the values add up to. -/
def total (measure : α → ℕ) (map : SortedMap κ α) : ℕ :=
  (map.entries.map fun entry => measure entry.2).sum

variable (measure : α → ℕ)

theorem total_modify {value : α} (h : map.find key = some value) (f : α → α) :
  (map.modify key f).total measure + measure value = map.total measure + measure (f value)
  := by
  obtain ⟨entries, sorted⟩ := map
  simp only [find] at h
  simp only [total, modify, map_map]
  induction entries with
  | nil => cases h
  | cons entry entries ih =>
    obtain ⟨hfirst, htail⟩ := pairwise_cons.mp sorted
    rw [map_cons, map_cons, sum_cons, sum_cons]
    by_cases hentry : entry.1 = key
    · have hvalue : entry.2 = value := by simpa [hentry] using h
      have hrest : entries.map ((fun entry => measure entry.2) ∘ fun entry =>
          if entry.1 = key then (entry.1, f entry.2) else entry) =
            entries.map fun entry => measure entry.2 := by
        apply map_congr_left
        intro other hother
        have hne : other.1 ≠ key := by
          rw [← hentry]
          exact (ne_of_lt (hfirst other.1 (mem_map_of_mem hother))).symm
        rw [Function.comp_apply, if_neg hne]
      rw [hrest, Function.comp_apply, if_pos hentry, hvalue]
      dsimp only
      omega
    · have hfind : (entries.find? fun entry => entry.1 = key).map Prod.snd = some value := by
        simpa [hentry] using h
      have hrest := ih htail hfind
      rw [Function.comp_apply, if_neg hentry]
      omega

theorem total_emplace (h : key ∉ map.keys) (value : α) :
  (map.emplace key value).total measure = map.total measure + measure value
  := by
  obtain ⟨entries, sorted⟩ := map
  simp only [keys] at h
  simp only [total, emplace]
  clear sorted
  induction entries with
  | nil => simp [place]
  | cons entry entries ih =>
    rw [map_cons, mem_cons, not_or] at h
    rw [place]
    split
    · simp only [map_cons, sum_cons]
      omega
    · rw [if_neg h.1]
      simp only [map_cons, sum_cons]
      have hrest := ih h.2
      omega

theorem total_erase {value : α} (h : map.find key = some value) :
  (map.erase key).total measure + measure value = map.total measure
  := by
  obtain ⟨entries, sorted⟩ := map
  simp only [find] at h
  simp only [total, erase]
  induction entries with
  | nil => cases h
  | cons entry entries ih =>
    obtain ⟨hfirst, htail⟩ := pairwise_cons.mp sorted
    rw [filter_cons, map_cons, sum_cons]
    by_cases hentry : entry.1 = key
    · have hvalue : entry.2 = value := by simpa [hentry] using h
      have hrest : entries.filter (fun entry => entry.1 ≠ key) = entries := by
        apply filter_eq_self.mpr
        intro other hother
        have hlt := hfirst other.1 (mem_map_of_mem hother)
        rw [hentry] at hlt
        simpa using (ne_of_lt hlt).symm
      rw [if_neg (by simpa using hentry), hrest, hvalue]
      omega
    · have hfind : (entries.find? fun entry => entry.1 = key).map Prod.snd = some value := by
        simpa [hentry] using h
      have hrest := ih htail hfind
      rw [if_pos (by simpa using hentry), map_cons, sum_cons]
      omega

/-- What is under a key is part of the total. -/
theorem le_total {value : α} (h : map.find key = some value) :
  measure value ≤ map.total measure
  := by
  have herase := total_erase measure h
  omega

end SortedMap

end Containers
