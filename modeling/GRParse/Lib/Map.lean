import Mathlib.Data.Finmap

/-!
# Maps

Finite maps with values of one type.  A map may be given by a set of keys and a partial
function on them; the ways to change the values of a map, to compare two maps and to drop
keys are cases of that.
-/

namespace Containers

open List Finmap

/-- A map with the given keys and values. -/
abbrev Map (κ α : Type) := Finmap fun _ : κ => α

namespace Map

variable {κ α β : Type} [DecidableEq κ]

/-- The map that takes each of the given keys to its value, where it has one. -/
def collect (keys : Finset κ) (f : κ → Option α) : Map κ α :=
  Finmap.keysLookupEquiv.symm
    ⟨(keys.filter fun key => (f key).isSome, fun key => if key ∈ keys then f key else none), by
      intro key
      by_cases h : key ∈ keys <;> simp [h]⟩

@[simp]
theorem lookup_collect (keys : Finset κ) (f : κ → Option α) (key : κ) :
  (collect keys f).lookup key = if key ∈ keys then f key else none
  := by
  simp [collect]

theorem keys_collect {keys : Finset κ} {f : κ → Option α} (h : ∀ key ∈ keys, (f key).isSome) :
  (collect keys f).keys = keys
  := by
  ext key
  rw [Finmap.mem_keys, ← Finmap.lookup_isSome, lookup_collect]
  split
  case isTrue hkey => exact iff_of_true (h key hkey) hkey
  case isFalse hkey => exact iff_of_false Bool.false_ne_true hkey

variable {key : κ} {map : Map κ α}

/-- A map has nothing at the keys it lacks. -/
theorem lookup_of_notMem (h : key ∉ map.keys) :
  map.lookup key = none
  := lookup_eq_none.mpr (mt mem_keys.mpr h)

/-- The map with its values changed. -/
def mapValues (f : α → β) (map : Map κ α) : Map κ β :=
  collect map.keys fun key => (map.lookup key).map f

@[simp]
theorem lookup_mapValues (f : α → β) (map : Map κ α) (key : κ) :
  (map.mapValues f).lookup key = (map.lookup key).map f
  := by
  rw [mapValues, lookup_collect, ite_eq_left_iff]
  intro h
  rw [lookup_of_notMem h, Option.map_none]

/-- The entries of `map` that `other` lacks or holds with another value. -/
def changed [DecidableEq α] (map other : Map κ α) : Map κ α :=
  collect map.keys fun key => if other.lookup key = map.lookup key then none else map.lookup key

@[simp]
theorem lookup_changed [DecidableEq α] (map other : Map κ α) (key : κ) :
  (map.changed other).lookup key =
    if other.lookup key = map.lookup key then none else map.lookup key
  := by
  rw [changed, lookup_collect, ite_eq_left_iff]
  intro h
  rw [lookup_of_notMem h, ite_self]

/-- The map with the given entries put in. -/
def putAll (map entries : Map κ α) : Map κ α :=
  entries ∪ map

theorem lookup_putAll (map entries : Map κ α) (key : κ) :
  (map.putAll entries).lookup key = (entries.lookup key).or (map.lookup key)
  := by
  by_cases h : key ∈ entries
  · obtain ⟨value, hvalue⟩ := mem_iff.mp h
    rw [putAll, lookup_union_left h, hvalue, Option.some_or]
  · rw [putAll, lookup_union_right h, lookup_eq_none.mpr h, Option.none_or]

/-- The map without the given keys. -/
def eraseAll (map : Map κ α) (keys : Finset κ) : Map κ α :=
  collect (map.keys \ keys) map.lookup

theorem lookup_eraseAll (map : Map κ α) (keys : Finset κ) (key : κ) :
  (map.eraseAll keys).lookup key = if key ∈ keys then none else map.lookup key
  := by
  rw [eraseAll, lookup_collect]
  by_cases h : key ∈ map.keys <;> by_cases hk : key ∈ keys <;>
    simp [h, hk, lookup_of_notMem]

/-- Two maps of the same keys are the same when neither changes the other. -/
theorem eq_of_changed [DecidableEq α] {map other : Map κ α} (hchanged : map.changed other = ∅)
    (hkeys : other.keys ⊆ map.keys) :
  map = other
  := by
  apply ext_lookup
  intro key
  have hnone : (map.changed other).lookup key = none := by
    rw [hchanged, lookup_empty]
  rw [lookup_changed] at hnone
  split at hnone
  next heq => exact heq.symm
  next hne =>
    have hmap : key ∉ map.keys := fun h => lookup_eq_none.mp hnone (mem_keys.mp h)
    rw [hnone, lookup_of_notMem fun h => hmap (hkeys h)]

/-- What changed, put into the other map, and the keys the map lacks dropped, give the map. -/
theorem eraseAll_putAll_changed [DecidableEq α] (map other : Map κ α) :
  (other.putAll (map.changed other)).eraseAll (other.keys \ map.keys) = map
  := by
  apply ext_lookup
  intro key
  rw [lookup_eraseAll, lookup_putAll, lookup_changed]
  by_cases h : key ∈ map.keys
  · rw [if_neg (by simp [h])]
    obtain ⟨value, hvalue⟩ := mem_iff.mp (mem_keys.mp h)
    split
    next heq => rw [Option.none_or, heq]
    next => rw [hvalue, Option.some_or]
  · rw [lookup_of_notMem h]
    by_cases hother : key ∈ other.keys <;> simp [h, hother, lookup_of_notMem]

/-- The map with the entries of a list, one after the other. -/
def insertAll (entries : List (κ × α)) (map : Map κ α) : Map κ α :=
  entries.foldl (fun map entry => map.insert entry.1 entry.2) map

variable {entries : List (κ × α)}

theorem lookup_insertAll_of_notMem (h : ∀ entry ∈ entries, entry.1 ≠ key) (map : Map κ α) :
  (insertAll entries map).lookup key = map.lookup key
  := by
  induction entries using reverseRecOn with
  | nil => rfl
  | append_singleton entries entry ih =>
    rw [insertAll, foldl_append, foldl_cons, foldl_nil,
      lookup_insert_of_ne _ (h entry (by simp)).symm]
    exact ih fun other hother => h other (mem_append_left _ hother)

/-- What stands under a key whose entries agree. -/
theorem lookup_insertAll_of_mem {value : α} (hmem : (key, value) ∈ entries)
    (hsame : ∀ entry ∈ entries, entry.1 = key → entry.2 = value) (map : Map κ α) :
  (insertAll entries map).lookup key = some value
  := by
  induction entries using reverseRecOn with
  | nil => cases hmem
  | append_singleton entries entry ih =>
    rw [insertAll, foldl_append, foldl_cons, foldl_nil]
    by_cases hkey : entry.1 = key
    · rw [hkey, lookup_insert, hsame entry (by simp) hkey]
    · rw [lookup_insert_of_ne _ (Ne.symm hkey)]
      apply ih
      · obtain hmem | hmem := mem_append.mp hmem
        · exact hmem
        · obtain rfl := mem_singleton.mp hmem
          exact absurd rfl hkey
      · exact fun other hother => hsame other (mem_append_left _ hother)

/-! ### Entries that do not displace others -/

/-- Entries put in one after the other, unless their key is there. -/
def emplaceAll (entries : List (κ × α)) (map : Map κ α) : Map κ α :=
  entries.foldl (fun map entry => if entry.1 ∈ map then map else map.insert entry.1 entry.2) map

theorem lookup_emplaceAll_of_mem (h : key ∈ map) (entries : List (κ × α)) :
  (emplaceAll entries map).lookup key = map.lookup key
  := by
  induction entries generalizing map with
  | nil => rfl
  | cons entry entries ih =>
    rw [emplaceAll, foldl_cons]
    split
    · exact ih h
    next hnew =>
      have hne : key ≠ entry.1 := by
        rintro rfl
        exact hnew h
      rw [← emplaceAll, ih (mem_insert.mpr (.inr h)), lookup_insert_of_ne _ hne]

theorem mem_emplaceAll :
  key ∈ emplaceAll entries map ↔ key ∈ map ∨ ∃ entry ∈ entries, entry.1 = key
  := by
  induction entries generalizing map with
  | nil => simp [emplaceAll]
  | cons entry entries ih =>
    rw [emplaceAll, foldl_cons, ← emplaceAll, ih]
    split
    next hold =>
      simp only [mem_cons, exists_eq_or_imp]
      constructor
      · rintro (h | h)
        · exact .inl h
        · exact .inr (.inr h)
      · rintro (h | rfl | h)
        · exact .inl h
        · exact .inl hold
        · exact .inr h
    next =>
      simp only [mem_insert, mem_cons, exists_eq_or_imp]
      rw [@or_comm _ (key ∈ map), or_assoc, @eq_comm _ key]

/-- An entry whose key no other entry has is found. -/
theorem lookup_emplaceAll_of_entry {value : α} (hkey : key ∉ map) (hmem : (key, value) ∈ entries)
    (hsame : ∀ entry ∈ entries, entry.1 = key → entry.2 = value) :
  (emplaceAll entries map).lookup key = some value
  := by
  induction entries generalizing map with
  | nil => cases hmem
  | cons entry entries ih =>
    rw [emplaceAll, foldl_cons, ← emplaceAll]
    have hrest : ∀ other ∈ entries, other.1 = key → other.2 = value :=
      fun other hother => hsame other (mem_cons_of_mem _ hother)
    by_cases heq : entry.1 = key
    · have hvalue := hsame entry mem_cons_self heq
      subst heq
      rw [if_neg hkey, lookup_emplaceAll_of_mem (mem_insert.mpr (.inl rfl)), hvalue]
      exact lookup_insert map
    · have hentries : (key, value) ∈ entries := by
        obtain rfl | h := mem_cons.mp hmem
        · exact absurd rfl heq
        · exact h
      split
      · exact ih hkey hentries hrest
      · apply ih _ hentries hrest
        rw [mem_insert]
        exact fun h => h.elim (fun h => heq h.symm) hkey

end Map

end Containers
