import Mathlib.Data.List.Induction

/-!
# Joined texts

Parts that are written one behind the other with a separator between two of them, and the ranges
that they take.  No part is empty, so the separator is set exactly before the parts behind the
first.  The ranges slice the parts out of the whole, in order, and leave nothing but the
separators.
-/

namespace Joined

open List

variable {α : Type}

/-- A text with one more part behind it. -/
def addPart (separator : α) (text part : List α) : List α :=
  (if text = [] then text else text ++ [separator]) ++ part

/-- The parts, joined. -/
def join (separator : α) (parts : List (List α)) : List α :=
  parts.foldl (addPart separator) []

/-- Where the next part starts, behind the end of the last one. -/
def nextStart (last : Option ℕ) : ℕ :=
  last.elim 0 (· + 1)

/-- The ranges of parts of the given lengths, behind the end of the last part before them. -/
def rangesFrom : Option ℕ → List ℕ → List (ℕ × ℕ)
  | _, [] => []
  | last, length :: lengths =>
    (nextStart last, nextStart last + length) ::
      rangesFrom (some (nextStart last + length)) lengths

/-- The end of the last of parts of the given lengths. -/
def endFrom : Option ℕ → List ℕ → Option ℕ
  | last, [] => last
  | last, length :: lengths => endFrom (some (nextStart last + length)) lengths

/-- The elements in a range of a text. -/
def slice (text : List α) (range : ℕ × ℕ) : List α :=
  (text.take range.2).drop range.1

/-! ### Ranges -/

theorem rangesFrom_append (last : Option ℕ) (first second : List ℕ) :
  rangesFrom last (first ++ second)
    = rangesFrom last first ++ rangesFrom (endFrom last first) second
  := by
  induction first generalizing last with
  | nil => rfl
  | cons length lengths ih => exact congrArg (_ :: ·) (ih _)

theorem endFrom_append (last : Option ℕ) (first second : List ℕ) :
  endFrom last (first ++ second) = endFrom (endFrom last first) second
  := by
  induction first generalizing last with
  | nil => rfl
  | cons length lengths ih => exact ih _

@[simp]
theorem length_rangesFrom (last : Option ℕ) (lengths : List ℕ) :
  (rangesFrom last lengths).length = lengths.length
  := by
  induction lengths generalizing last with
  | nil => rfl
  | cons length lengths ih => exact congrArg (· + 1) (ih _)

/-! ### The whole -/

@[simp]
theorem join_concat (separator : α) (parts : List (List α)) (part : List α) :
  join separator (parts ++ [part]) = addPart separator (join separator parts) part
  := by
  rw [join, join, foldl_append]
  rfl

/-- The ranges tile a text but for the separators: every place of the text is in a range, or
holds the separator between the end of one range and the start of the next. -/
structure Tiles (separator : α) (text : List α) (ranges : List (ℕ × ℕ)) : Prop where
  ordered : ranges.Pairwise fun range next => range.2 < next.1
  bounded : ∀ range ∈ ranges, range.1 < range.2 ∧ range.2 ≤ text.length
  covered : ∀ place < text.length, (∃ range ∈ ranges, range.1 ≤ place ∧ place < range.2) ∨
    text[place]? = some separator ∧
      ∃ index range next, ranges[index]? = some range ∧ ranges[index + 1]? = some next ∧
        range.2 = place ∧ next.1 = place + 1

/-- The parts and the ranges of a whole. -/
structure Sliced (separator : α) (parts : List (List α)) (text : List α)
    (ranges : List (ℕ × ℕ)) : Prop where
  tiles : Tiles separator text ranges
  slices : ranges.map (slice text) = parts

theorem join_eq_nil_iff {separator : α} {parts : List (List α)} (h : ∀ part ∈ parts, part ≠ []) :
  join separator parts = [] ↔ parts = []
  := by
  induction parts using reverseRecOn with
  | nil => simp [join]
  | append_singleton parts part _ =>
    have hpart := h part (by simp)
    simp [addPart, hpart]

/-- Where the last of the parts ends, the whole ends. -/
theorem endFrom_join {separator : α} {parts : List (List α)} (h : ∀ part ∈ parts, part ≠ []) :
  endFrom none (parts.map List.length)
    = if parts = [] then none else some (join separator parts).length
  := by
  induction parts using reverseRecOn with
  | nil => rfl
  | append_singleton parts part ih =>
    have hparts : ∀ other ∈ parts, other ≠ [] := fun other hother => h other (by simp [hother])
    rw [map_append, endFrom_append, ih hparts, join_concat, addPart]
    by_cases hnil : parts = []
    · simp [hnil, endFrom, nextStart, join]
    · have hjoin : join separator parts ≠ [] := mt (join_eq_nil_iff hparts).mp hnil
      simp [endFrom, nextStart, hnil, hjoin, Nat.add_assoc, Nat.add_comm 1]

theorem slice_append {text : List α} {range : ℕ × ℕ} (h : range.2 ≤ text.length) (more : List α) :
  slice (text ++ more) range = slice text range
  := by rw [slice, slice, take_append_of_le_length h]

/-- The first part is the whole. -/
theorem sliced_singleton (separator : α) {part : List α} (h : part ≠ []) :
  Sliced separator [part] part [(0, part.length)]
  := by
  have hpos := length_pos_iff.mpr h
  constructor
  case tiles =>
    constructor
    case ordered => simp
    case bounded => simpa using hpos
    case covered =>
      intro place hplace
      exact .inl ⟨_, mem_singleton_self _, Nat.zero_le _, hplace⟩
  case slices => simp [slice]

/-- One more part is tiled by one more range. -/
theorem Sliced.append {separator : α} {parts : List (List α)} {text : List α}
    {ranges : List (ℕ × ℕ)} (h : Sliced separator parts text ranges) {last : ℕ × ℕ}
    (hlast : ranges.getLast? = some last) (hend : last.2 = text.length) {part : List α}
    (hpart : part ≠ []) :
  Sliced separator (parts ++ [part]) (text ++ separator :: part)
    (ranges ++ [(text.length + 1, text.length + 1 + part.length)])
  := by
  have hpos := List.length_pos_iff.mpr hpart
  obtain ⟨init, rfl⟩ := List.getLast?_eq_some_iff.mp hlast
  constructor
  case tiles =>
    constructor
    case ordered =>
      rw [List.pairwise_append]
      use h.tiles.ordered, List.pairwise_singleton _ _
      intro range hrange next hnext
      rw [List.mem_singleton.mp hnext]
      exact Nat.lt_succ_of_le (h.tiles.bounded range hrange).2
    case bounded =>
      intro range hrange
      rw [List.length_append, List.length_cons]
      rcases List.mem_append.mp hrange with hold | hnew
      · obtain ⟨hlt, hle⟩ := h.tiles.bounded range hold
        omega
      · rw [List.mem_singleton.mp hnew]
        constructor
        · exact Nat.lt_add_of_pos_right hpos
        · omega
    case covered =>
      intro place hplace
      rw [List.length_append, List.length_cons] at hplace
      rcases Nat.lt_trichotomy place text.length with hlt | rfl | hgt
      · rcases h.tiles.covered place hlt with ⟨range, hrange, hin⟩ |
          ⟨hseparator, index, range, next, hrange, hnext, hends⟩
        · exact .inl ⟨range, List.mem_append_left _ hrange, hin⟩
        · right
          constructor
          · rwa [List.getElem?_append_left hlt]
          · use index, range, next
            rw [List.getElem?_append_left (List.getElem?_eq_some_iff.mp hrange).1,
              List.getElem?_append_left (List.getElem?_eq_some_iff.mp hnext).1]
            exact ⟨hrange, hnext, hends⟩
      · right
        constructor
        · simp
        · use init.length, last, (text.length + 1, text.length + 1 + part.length)
          simp [hend]
      · exact .inl ⟨_, List.mem_append_right _ (List.mem_singleton_self _), hgt, by omega⟩
  case slices =>
    rw [List.map_append, List.map_singleton, ← h.slices]
    congr 1
    · apply List.map_congr_left
      intro range hrange
      exact slice_append (h.tiles.bounded range hrange).2 _
    · simp [slice, Nat.add_assoc, List.take_append, List.drop_append, Nat.add_comm 1]

/-- The ranges slice the parts out of the whole. -/
theorem sliced_join (separator : α) {parts : List (List α)} (h : ∀ part ∈ parts, part ≠ []) :
  Sliced separator parts (join separator parts) (rangesFrom none (parts.map List.length))
  := by
  induction parts using reverseRecOn with
  | nil => exact ⟨⟨.nil, by simp [rangesFrom], by simp [join]⟩, rfl⟩
  | append_singleton parts part ih =>
    have hparts : ∀ other ∈ parts, other ≠ [] := fun other hother => h other (by simp [hother])
    have hpart := h part (by simp)
    have hsliced := ih hparts
    rw [map_append, rangesFrom_append, @endFrom_join _ separator _ hparts, join_concat, addPart]
    obtain rfl | hnil := eq_or_ne parts []
    · simpa [join, rangesFrom, nextStart] using sliced_singleton separator hpart
    · obtain ⟨init, last, rfl⟩ : ∃ init last, parts = init ++ [last] :=
        ⟨_, _, (dropLast_concat_getLast hnil).symm⟩
      have hjoin : join separator (init ++ [last]) ≠ [] := mt (join_eq_nil_iff hparts).mp hnil
      have hend := @endFrom_join _ separator _ hparts
      rw [if_neg hnil, map_append, endFrom_append] at hend
      let start := nextStart (endFrom none (init.map length))
      have hlast : (rangesFrom none ((init ++ [last]).map length)).getLast?
          = some (start, start + last.length) := by
        rw [map_append, rangesFrom_append]
        exact getLast?_concat
      rw [if_neg hjoin, if_neg hnil, append_assoc (join separator _)]
      exact hsliced.append hlast (Option.some.inj hend) hpart

end Joined
