import GRParse.Render.GridBudget

/-!
# What a cell reaches

A range of offsets reaches the kept ones among its indexes, in order.  The code clips the offsets
before zero and those behind it by themselves; the indexes that come out are those of the whole
range, less those that are not kept.
-/

namespace GRParse.Grids

open List

/-! ### Spans -/

@[simp]
theorem mem_indexes {span : ℤ × ℤ} {index : ℤ} :
  index ∈ indexes span ↔ span.1 ≤ index ∧ index < span.2
  := by
  simp only [indexes, mem_map, mem_range]
  constructor
  · rintro ⟨n, hn, rfl⟩
    omega
  · rintro ⟨hfirst, hlast⟩
    exact ⟨(index - span.1).toNat, by omega, by omega⟩

@[simp]
theorem length_indexes (span : ℤ × ℤ) :
  (indexes span).length = (span.2 - span.1).toNat
  := by
  simp [indexes]

theorem indexes_eq_nil {span : ℤ × ℤ} (h : span.2 ≤ span.1) :
  indexes span = []
  := by
  rw [← length_eq_zero_iff, length_indexes]
  omega

theorem indexes_cons {first last : ℤ} (h : first < last) :
  indexes (first, last) = first :: indexes (first + 1, last)
  := by
  obtain ⟨n, hn⟩ : ∃ n : ℕ, (last - first).toNat = n + 1 := ⟨(last - first).toNat - 1, by omega⟩
  have hrest : (last - (first + 1)).toNat = n := by omega
  simp only [indexes, hn, hrest, range_succ_eq_map, map_cons, map_map]
  congr 1
  · simp
  · apply map_congr_left
    intro k _
    simp only [Function.comp_apply]
    omega

/-- A span is the two parts it has around an index. -/
theorem indexes_append {first middle last : ℤ} (hfirst : first ≤ middle) (hlast : middle ≤ last) :
  indexes (first, middle) ++ indexes (middle, last) = indexes (first, last)
  := by
  obtain ⟨n, rfl⟩ : ∃ n : ℕ, middle = first + n := ⟨(middle - first).toNat, by omega⟩
  induction n generalizing first with
  | zero => simp [indexes_eq_nil]
  | succ n ih =>
    have hnext : first + 1 + (n : ℤ) = first + ↑(n + 1) := by omega
    have hrest := @ih (first + 1) (by omega) (by omega)
    rw [hnext] at hrest
    rw [indexes_cons (by omega), indexes_cons (by omega : first < last), cons_append, hrest]

theorem map_indexes_add (span : ℤ × ℤ) (shift : ℤ) :
  (indexes span).map (· + shift) = indexes (span.1 + shift, span.2 + shift)
  := by
  have hlength : span.2 + shift - (span.1 + shift) = span.2 - span.1 := by omega
  simp only [indexes, hlength, map_map]
  apply map_congr_left
  intro k _
  simp only [Function.comp_apply]
  omega

/-- The indexes of a span below a bound are a span. -/
theorem filter_indexes_lt (first last bound : ℤ) :
  (indexes (first, last)).filter (· < bound) = indexes (first, min last bound)
  := by
  obtain hlast | hbound := le_total last bound
  · rw [min_eq_left hlast, filter_eq_self]
    intro index hindex
    have := mem_indexes.mp hindex
    simp only [decide_eq_true_eq]
    omega
  · rw [min_eq_right hbound]
    obtain hfirst | hfirst := le_total bound first
    · have hnone : indexes (first, bound) = [] := indexes_eq_nil hfirst
      rw [hnone, filter_eq_nil_iff]
      intro index hindex
      have := mem_indexes.mp hindex
      simp only [decide_eq_true_eq]
      omega
    · have hbelow : (indexes (first, bound)).filter (· < bound) = indexes (first, bound) := by
        rw [filter_eq_self]
        intro index hindex
        simpa using (mem_indexes.mp hindex).2
      have habove : (indexes (bound, last)).filter (· < bound) = [] := by
        rw [filter_eq_nil_iff]
        intro index hindex
        simpa using (mem_indexes.mp hindex).1
      rw [← indexes_append hfirst hbound, filter_append, hbelow, habove, append_nil]

/-! ### Ranges of offsets -/

/-- The index of an offset, a negative one counted back from the size. -/
def wrap (size : ℕ) (offset : ℤ) : ℤ :=
  if offset < 0 then offset + size else offset

/-- The indexes of `range(start, min(stop, size))`, but for the offsets that fall off the front. -/
def rangeIndexes (start stop : ℤ) (size : ℕ) : List ℤ :=
  (indexes (max start (-size), min stop size)).map (wrap size)

/-- The indexes of a flat cell: one at least. -/
def flatIndexes (start stop : ℤ) : List ℤ :=
  indexes (max 0 start, max stop (start + 1))

/-- Those that are kept. -/
def keep (kept : ℕ) (indexes : List ℤ) : List ℤ :=
  indexes.filter (· < kept)

theorem rangeIndexes_eq (start stop : ℤ) (size : ℕ) :
  rangeIndexes start stop size =
    indexes (max start (-size) + size, min stop 0 + size) ++
      indexes (max start 0, min stop size)
  := by
  have hwrapped : ∀ first last : ℤ, last ≤ 0 →
      (indexes (first, last)).map (wrap size) = indexes (first + size, last + size) := by
    intro first last hlast
    apply Eq.trans _ (map_indexes_add (first, last) size)
    apply map_congr_left
    intro offset hoffset
    have := mem_indexes.mp hoffset
    rw [wrap, if_pos (by omega)]
  have hdirect : ∀ first last : ℤ, 0 ≤ first →
      (indexes (first, last)).map (wrap size) = indexes (first, last) := by
    intro first last hfirst
    rw [map_congr_left, map_id]
    intro offset hoffset
    have := mem_indexes.mp hoffset
    rw [wrap, if_neg (by omega)]
    rfl
  rw [rangeIndexes]
  obtain hstart | hstart := le_total 0 start
  · have hnone : indexes (max start (-size) + size, min stop 0 + size) = [] :=
      indexes_eq_nil (by simp only; omega)
    rw [hnone, nil_append, max_eq_left (by omega : -(size : ℤ) ≤ start), max_eq_left hstart,
      hdirect _ _ hstart]
  obtain hstop | hstop := le_total stop 0
  · have hnone : indexes (max start 0, min stop size) = [] :=
      indexes_eq_nil (by simp only; omega)
    rw [hnone, append_nil, min_eq_left (by omega : stop ≤ size), min_eq_left hstop,
      hwrapped _ _ hstop]
  · rw [← @indexes_append (max start (-size)) 0 (min stop size) (by omega) (by omega),
      map_append, hwrapped _ _ le_rfl, hdirect _ _ le_rfl, max_eq_right hstart,
      min_eq_right hstop]

/-- The kept indexes of a range, as two spans. -/
theorem keep_rangeIndexes (start stop : ℤ) {size kept : ℕ} (hkept : kept ≤ size) :
  keep kept (rangeIndexes start stop size) =
    indexes (max start (-size) + size, min (min stop 0 + size) kept) ++
      indexes (max start 0, min stop kept)
  := by
  have hmin : min (min stop (size : ℤ)) (kept : ℤ) = min stop kept := by omega
  rw [keep, rangeIndexes_eq, filter_append, filter_indexes_lt, filter_indexes_lt, hmin]

theorem mem_rangeIndexes {start stop index : ℤ} {size : ℕ} :
  index ∈ rangeIndexes start stop size ↔
    ∃ offset, start ≤ offset ∧ offset < min stop size ∧ -size ≤ offset ∧ wrap size offset = index
  := by
  simp only [rangeIndexes, mem_map, mem_indexes, max_le_iff]
  constructor
  · rintro ⟨offset, ⟨⟨hstart, hsize⟩, hstop⟩, rfl⟩
    exact ⟨offset, hstart, hstop, hsize, rfl⟩
  · rintro ⟨offset, hstart, hstop, hsize, rfl⟩
    exact ⟨offset, ⟨⟨hstart, hsize⟩, hstop⟩, rfl⟩

/-! ### The reaches of the code -/

theorem asInt_of_fits {value : ℤ} (h : -2 ^ 31 ≤ value ∧ value < 2 ^ 31) :
  asInt value = some value
  := by
  rw [asInt, if_pos]
  unfold intMax
  omega

theorem asInt64_of_fits {value : ℤ} (h : -2 ^ 63 ≤ value ∧ value < 2 ^ 63) :
  asInt64 value = some value
  := if_pos h

theorem asInt_of_not_fits {value : ℤ} (h : ¬ (-2 ^ 31 ≤ value ∧ value < 2 ^ 31)) :
  asInt value = none
  := by
  rw [asInt, if_neg]
  unfold intMax
  omega

/-- A reach has the given indexes, and their number. -/
structure Reach.Covers (reach : Reach) (indexes : List ℤ) : Prop where
  each : reach.each = indexes
  count : reach.count = some (indexes.length : ℤ)

/-- The first index that is visited. -/
theorem Reach.first_of_each {reach : Reach} {index : ℤ} {rest : List ℤ}
    (h : reach.each = index :: rest) :
  reach.first = index
  := by
  rw [Reach.each] at h
  rw [Reach.first]
  split
  case isTrue hwrapped =>
    have hcons : indexes reach.wrapped = _ := indexes_cons hwrapped
    rw [hcons, cons_append] at h
    exact (cons.inj h).1
  case isFalse hnone =>
    rw [indexes_eq_nil (not_lt.mp hnone), nil_append] at h
    have hdirect : reach.direct.1 < reach.direct.2 := by
      by_contra hempty
      rw [indexes_eq_nil (not_lt.mp hempty)] at h
      cases h
    have hcons : indexes reach.direct = _ := indexes_cons hdirect
    rw [hcons] at h
    exact (cons.inj h).1

/-- The number of indexes is what the spans count, where these can be subtracted and added. -/
theorem Reach.count_eq (reach : Reach)
    (hwrapped : -2 ^ 31 ≤ reach.wrapped.2 - reach.wrapped.1 ∧
      reach.wrapped.2 - reach.wrapped.1 < 2 ^ 31)
    (hdirect : reach.direct.2 - reach.direct.1 < 2 ^ 31) :
  reach.count =
    if -2 ^ 31 ≤ reach.direct.2 - reach.direct.1 ∧ reach.each.length < 2 ^ 31 then
      some (reach.each.length : ℤ)
    else none
  := by
  have hlength : (reach.each.length : ℤ) =
      max 0 (reach.wrapped.2 - reach.wrapped.1) + max 0 (reach.direct.2 - reach.direct.1) := by
    rw [Reach.each, length_append, length_indexes, length_indexes]
    omega
  rw [Reach.count, asInt_of_fits hwrapped]
  by_cases hlow : -2 ^ 31 ≤ reach.direct.2 - reach.direct.1
  case neg =>
    rw [if_neg (fun h => hlow h.1), asInt_of_not_fits fun h => hlow h.1]
    rfl
  rw [asInt_of_fits ⟨hlow, hdirect⟩]
  simp only [Option.bind_eq_bind, Option.bind_some, ← hlength]
  by_cases hcount : reach.each.length < 2 ^ 31
  · rw [if_pos ⟨hlow, hcount⟩, asInt_of_fits (by omega)]
  · rw [if_neg (fun h => hcount h.2), asInt_of_not_fits (by omega)]

/-- A flat cell reaches its indexes, unless there is no number for the index behind its start. -/
theorem flatReach_spec (start stop : Int32) {kept : ℕ} (hkept : kept < 2 ^ 31) :
  if start.toInt < intMax then
    ∃ reach, flatReach start stop kept = some reach ∧
      reach.Covers (keep kept (flatIndexes start.toInt stop.toInt))
  else (flatReach start stop kept).bind Reach.count = none
  := by
  have hlow := start.le_toInt
  have hhigh := start.toInt_lt
  have hlast := stop.le_toInt
  split
  case isFalse h =>
    rw [flatReach, asInt_of_not_fits (by unfold intMax at h; omega)]
    rfl
  case isTrue h =>
    unfold intMax at h
    rw [flatReach, asInt_of_fits (by omega)]
    refine ⟨_, rfl, ?_⟩
    set reach : Reach :=
      { direct := (max 0 start.toInt, min kept (max stop.toInt (start.toInt + 1))) } with hreach
    have heach : reach.each = keep kept (flatIndexes start.toInt stop.toInt) := by
      rw [keep, flatIndexes, filter_indexes_lt, min_comm, hreach, Reach.each]
      simp [indexes_eq_nil]
    refine ⟨heach, ?_⟩
    have hlength : reach.each.length < 2 ^ 31 := by
      rw [Reach.each, length_append, length_indexes, length_indexes]
      simp only [hreach]
      omega
    rw [Reach.count_eq reach (by simp [hreach]) (by simp only [hreach]; omega),
      if_pos ⟨by simp only [hreach]; omega, hlength⟩, heach]

/-- The offsets of a range can be counted, those before zero and the others. -/
def Countable (start stop : ℤ) (size kept : ℕ) : Prop :=
  -2 ^ 31 ≤ stop - max 0 (min start size) ∧ (keep kept (rangeIndexes start stop size)).length < 2 ^ 31

instance (start stop : ℤ) (size kept : ℕ) : Decidable (Countable start stop size kept) :=
  inferInstanceAs (Decidable (_ ∧ _))

/-- A range reaches its kept indexes, if they can be counted. -/
theorem derivedReach_spec (start stop : Int32) {size kept : ℕ} (hkept : kept ≤ size)
    (hsize : size < 2 ^ 31) :
  if Countable start.toInt stop.toInt size kept then
    ∃ reach, derivedReach start stop size kept = some reach ∧
      reach.Covers (keep kept (rangeIndexes start.toInt stop.toInt size))
  else (derivedReach start stop size kept).bind Reach.count = none
  := by
  have hlow := start.le_toInt
  have hlast := stop.le_toInt
  obtain ⟨reach, hreach, heach, hwrapped, hdirect, hcountable⟩ : ∃ reach,
      derivedReach start stop size kept = some reach ∧
      reach.each = keep kept (rangeIndexes start.toInt stop.toInt size) ∧
      (-2 ^ 31 ≤ reach.wrapped.2 - reach.wrapped.1 ∧
        reach.wrapped.2 - reach.wrapped.1 < 2 ^ 31) ∧
      reach.direct.2 - reach.direct.1 < 2 ^ 31 ∧
      (-2 ^ 31 ≤ reach.direct.2 - reach.direct.1 ↔
        -2 ^ 31 ≤ stop.toInt - max 0 (min start.toInt size)) := by
    rw [derivedReach, asInt_of_fits (by omega), asInt_of_fits (by omega)]
    simp only [Option.bind_eq_bind, Option.bind_some]
    have hdirect : indexes (max (min start.toInt size) 0, min (min stop.toInt size) kept) =
        indexes (max start.toInt 0, min stop.toInt kept) := by
      obtain hstart | hstart := le_total start.toInt size
      · rw [min_eq_left hstart]
        congr 2
        omega
      · rw [indexes_eq_nil (by simp only; omega), indexes_eq_nil (by simp only; omega)]
    split
    case isTrue h =>
      rw [asInt_of_fits (by omega), asInt_of_fits (by omega)]
      refine ⟨_, rfl, ?_, by simp only; omega, by simp only; omega, by simp only; omega⟩
      have hfirst : max (min start.toInt size) (-size) + size = max start.toInt (-size) + size := by
        omega
      have hlast : min (min stop.toInt size) (min 0 (kept - size)) + size =
          min (min stop.toInt 0 + size) (kept : ℤ) := by
        omega
      rw [keep_rangeIndexes _ _ hkept, Reach.each, hdirect, hfirst, hlast]
    case isFalse h =>
      refine ⟨_, rfl, ?_, by simp, by simp only; omega, by simp only; omega⟩
      have hnone : indexes (max start.toInt (-size) + size, min (min stop.toInt 0 + size) kept) =
          [] := indexes_eq_nil (by simp only; omega)
      rw [keep_rangeIndexes _ _ hkept, Reach.each, hdirect, hnone]
      simp [indexes_eq_nil]
  have hcount := reach.count_eq hwrapped hdirect
  simp only [hcountable, heach] at hcount
  split
  case isTrue h => exact ⟨reach, hreach, heach, hcount.trans (if_pos h)⟩
  case isFalse h =>
    rw [hreach, Option.bind_some]
    exact hcount.trans (if_neg h)

end GRParse.Grids
