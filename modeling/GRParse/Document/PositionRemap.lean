import GRParse.Document.HyphenBytes
import GRParse.Lib.KeyedList
import Mathlib

/-!
# Positions behind removed runs

The pass that rejoins words takes runs of code points out of a text.  `PositionRemap` moves the
positions of spans past them.  The runs are disjoint and in order, what is written is the text
without them, and a range of the text covers, once moved, what is left of what it covered.
-/

namespace GRParse.Hyphenation

open Kept Utf8 List

/-! ### Runs -/

/-- The position is in none of the runs. -/
def kept (removed : List RemovedRun) (position : ℕ) : Bool :=
  removed.all fun run => position < run.start || run.stop ≤ position

/-- The runs are disjoint, in order, and within the given bounds. -/
def Within (low high : ℕ) : List RemovedRun → Prop
  | [] => low ≤ high
  | run :: removed => low ≤ run.start ∧ run.start < run.stop ∧ Within run.stop high removed

theorem Within.le {low high : ℕ} {removed : List RemovedRun} (h : Within low high removed) :
  low ≤ high
  := by
  induction removed generalizing low with
  | nil => exact h
  | cons run removed ih =>
    obtain ⟨hlow, hrun, hrest⟩ := h
    exact le_trans (le_trans hlow hrun.le) (ih hrest)

variable {removed : List RemovedRun}

theorem Within.append {low middle high : ℕ} (h : Within low middle removed) (hle : middle ≤ high) :
  Within low high removed
  := by
  induction removed generalizing low with
  | nil => exact le_trans h hle
  | cons run removed ih => exact ⟨h.1, h.2.1, ih h.2.2⟩

/-- A run behind all others. -/
theorem Within.concat {low middle : ℕ} {removed : List RemovedRun} (h : Within low middle removed)
    {run : RemovedRun} (hstart : middle ≤ run.start) (hrun : run.start < run.stop) :
  Within low run.stop (removed ++ [run])
  := by
  induction removed generalizing low with
  | nil => exact ⟨le_trans h hstart, hrun, le_rfl⟩
  | cons first removed ih => exact ⟨h.1, h.2.1, ih h.2.2⟩

theorem Within.mem {low high : ℕ} {removed : List RemovedRun} (h : Within low high removed)
    {run : RemovedRun} (hrun : run ∈ removed) :
  low ≤ run.start ∧ run.start < run.stop ∧ run.stop ≤ high
  := by
  induction removed generalizing low with
  | nil => cases hrun
  | cons first removed ih =>
    obtain ⟨hlow, hfirst, hrest⟩ := h
    cases hrun with
    | head => exact ⟨hlow, hfirst, hrest.le⟩
    | tail _ hrun =>
      obtain ⟨hstart, hstop⟩ := ih hrest hrun
      exact ⟨le_trans (le_trans hlow hfirst.le) hstart, hstop⟩

variable {low high : ℕ}

theorem Within.pairwise (h : Within low high removed) :
  removed.Pairwise fun run next => run.stop ≤ next.start
  := by
  induction removed generalizing low with
  | nil => exact .nil
  | cons run removed ih => exact .cons (fun next hnext => (h.2.2.mem hnext).1) (ih h.2.2)

/-- Every position from the upper bound on is kept. -/
theorem Within.kept {low high : ℕ} {removed : List RemovedRun} (h : Within low high removed)
    {position : ℕ} (hposition : high ≤ position) :
  kept removed position
  := by
  rw [Hyphenation.kept, all_eq_true]
  intro run hrun
  have hstop := (h.mem hrun).2.2
  simp
  omega

theorem kept_concat (removed : List RemovedRun) (run : RemovedRun) (position : ℕ) :
  kept (removed ++ [run]) position =
    (kept removed position && (position < run.start || run.stop ≤ position))
  := by
  simp [kept]

/-! ### What the pass leaves -/

/-- What the pass has written is what it has read without the runs it has taken out. -/
structure Rejoined.Deletes (s : Rejoined) (front : List Char) : Prop where
  within : Within 0 front.length s.removed
  out : s.out = keepFrom (kept s.removed) 0 front

section Deletes

variable {s : Rejoined} {front : List Char} (h : s.Deletes front)

include h

/-- Characters are written. -/
theorem Rejoined.Deletes.write (chars : List Char) (n m : ℕ) :
  Rejoined.Deletes ⟨s.out ++ chars, n, m, s.removed⟩ (front ++ chars)
  := by
  constructor
  case within =>
    rw [length_append]
    exact h.within.append (Nat.le_add_right _ _)
  case out =>
    simp only
    rw [keepFrom_append, ← h.out, keepFrom_all]
    intro i hi _
    exact h.within.kept (by omega)

/-- Characters are taken out. -/
theorem Rejoined.Deletes.remove (chars : List Char) (hchars : chars ≠ []) (n m : ℕ) :
  Rejoined.Deletes
    ⟨s.out, n, m, s.removed ++ [⟨front.length, front.length + chars.length⟩]⟩ (front ++ chars)
  := by
  have hpos := length_pos_iff.mpr hchars
  constructor
  case within =>
    rw [length_append]
    exact @Within.concat _ _ _ h.within ⟨front.length, _⟩ le_rfl (Nat.lt_add_of_pos_right hpos)
  case out =>
    simp only
    rw [keepFrom_append, keepFrom_none _ (0 + front.length), append_nil, h.out]
    · apply keepFrom_congr
      intro i _ hi
      rw [kept_concat, decide_eq_true (by omega : i < front.length), Bool.true_or, Bool.and_true]
    · intro i hi hlt
      rw [kept_concat]
      simp
      omega

end Deletes

/-- The pass writes the text without the runs it takes out. -/
theorem rejoinLoop_deletes (spaceIsBreak : Bool) (position : ℕ) (behind : List Char)
    (s : Rejoined) :
  ∀ {front : List Char}, position = front.length → s.Deletes front →
    (rejoinLoop spaceIsBreak position behind s).Deletes (front ++ behind)
  := by
  fun_induction rejoinLoop spaceIsBreak position behind s with
  | case1 position s =>
    intro front _ h
    rwa [append_nil]
  | case2 position behind s skipped =>
    rename_i ih
    intro front hfront h
    have hparts : front ++ kSoftHyphen :: behind =
        front ++ (kSoftHyphen :: behind.take skipped) ++ behind.drop skipped := by
      simp
    have hlength : (kSoftHyphen :: behind.take skipped).length = 1 + skipped := by
      rw [length_cons, Bytes.length_take_skipped, Nat.add_comm]
    have hremove := h.remove (kSoftHyphen :: behind.take skipped) (cons_ne_nil _ _)
      s.rejoined (s.softHyphensRemoved + 1)
    rw [hparts]
    apply ih
    · rw [length_append, hlength, hfront, Nat.add_assoc]
    · rw [hlength, ← Nat.add_assoc, ← hfront] at hremove
      exact hremove
  | case3 position behind s head hjoin gap tail joined first =>
    rename_i ih
    intro front hfront h
    have htake : (behind.take gap).length = gap := Bytes.length_take_breakAfter spaceIsBreak behind
    have hgap : behind.take gap ≠ [] := by
      apply ne_nil_of_length_pos
      rw [htake]
      exact breakAfter_pos hjoin
    have hparts : front ++ '-' :: behind =
        front ++ '-' :: (behind.take gap ++ tail) ++ behind.drop (gap + tail.length) := by
      conv_lhs => rw [← take_append_drop gap behind]
      rw [← drop_drop, append_assoc, cons_append, append_assoc,
        leadingWord_append_drop]
    have hout : s.out.take (s.out.length - head.length) ++ joined =
        s.out ++ (if isKnownCompound head tail then ['-'] else []) ++ tail := by
      conv_rhs => rw [← take_append_trailingWord s.out]
      simp [joined, joinHyphenatedFragments, head]
    rw [hparts]
    apply ih
    · simp [hfront, htake]
      omega
    have hread : front ++ '-' :: (behind.take gap ++ tail) =
        front ++ ['-'] ++ behind.take gap ++ tail := by simp
    rw [hread, hout]
    by_cases hcompound : isKnownCompound head tail
    · have hfirst : first = (front ++ ['-']).length := by
        simp [first, joined, joinHyphenatedFragments, hcompound, hfront]
      have hremove := ((h.write ['-'] s.rejoined s.softHyphensRemoved).remove (behind.take gap) hgap
        s.rejoined s.softHyphensRemoved).write tail (s.rejoined + 1) s.softHyphensRemoved
      rw [if_pos hcompound, hfirst, hfront]
      rw [htake] at hremove
      rw [length_append] at hremove ⊢
      exact hremove
    · have hfirst : first = front.length := by
        simp [first, joined, joinHyphenatedFragments, hcompound, hfront]
      have hremove := (h.remove ('-' :: behind.take gap) (cons_ne_nil _ _)
        s.rejoined s.softHyphensRemoved).write tail (s.rejoined + 1) s.softHyphensRemoved
      rw [if_neg hcompound, append_nil, hfirst, hfront]
      rw [length_cons, htake, Nat.add_comm gap, ← Nat.add_assoc] at hremove
      rw [append_assoc front, singleton_append]
      exact hremove
  | case4 position behind s head hjoin =>
    rename_i ih
    intro front hfront h
    have hparts : front ++ '-' :: behind = front ++ ['-'] ++ behind := by simp
    rw [hparts]
    exact ih (by simp [hfront]) (h.write ['-'] _ _)
  | case5 position c behind s hsoft hhard ih =>
    intro front hfront h
    have hparts : front ++ c :: behind = front ++ [c] ++ behind := by simp
    rw [hparts]
    exact ih (by simp [hfront]) (h.write [c] _ _)

/-! ### The remap -/

/-- The sums of the lengths of the runs before each run. -/
def removedBefore (total : ℤ) : List RemovedRun → List ℤ
  | [] => []
  | run :: removed => total :: removedBefore (total + (run.stop - run.start)) removed

/-- `PositionRemap`: the runs, with how much is removed before each. -/
structure PositionRemap where
  removed : List RemovedRun
  removedBefore : List ℤ

def PositionRemap.of (removed : List RemovedRun) : PositionRemap :=
  ⟨removed, Hyphenation.removedBefore 0 removed⟩

/-- Where a position lands: behind the last run that starts before it. -/
def PositionRemap.apply (remap : PositionRemap) (position : ℤ) : ℤ :=
  match remap.removed.findIdx fun run => position ≤ run.start with
  | 0 => position
  | index + 1 =>
    match remap.removed[index]?, remap.removedBefore[index]? with
    | some run, some before => position - (before + min position run.stop - run.start)
    | _, _ => position

/-- How many positions before the given one are in the runs. -/
def removedBelow (position : ℕ) (removed : List RemovedRun) : ℕ :=
  (removed.map fun run => min position run.stop - min position run.start).sum

theorem removedBelow_eq_zero {low high : ℕ} {removed : List RemovedRun}
    (h : Within low high removed) {position : ℕ} (hposition : position ≤ low) :
  removedBelow position removed = 0
  := by
  apply sum_eq_zero
  intro n hn
  obtain ⟨run, hrun, rfl⟩ := mem_map.mp hn
  have hstart := (h.mem hrun).1
  omega

/-- A position is removed when one of the runs, and no other, holds it. -/
theorem removedBelow_succ (h : Within low high removed) (position : ℕ) :
  removedBelow (position + 1) removed =
    removedBelow position removed + if kept removed position then 0 else 1
  := by
  induction removed generalizing low with
  | nil => rfl
  | cons run removed ih =>
    obtain ⟨-, hrun, hrest⟩ := h
    have hnext := ih hrest
    have hlow := @removedBelow_eq_zero _ _ _ hrest position
    have hlowNext := @removedBelow_eq_zero _ _ _ hrest (position + 1)
    have hkept : kept (run :: removed) position =
        ((position < run.start || run.stop ≤ position) && kept removed position) := rfl
    simp only [removedBelow, map_cons, sum_cons] at hnext hlow hlowNext ⊢
    rw [hkept]
    obtain hbefore | hstart := Nat.lt_or_ge position run.start
    · rw [decide_eq_true hbefore, Bool.true_or, Bool.true_and]
      omega
    obtain hinside | hbehind := Nat.lt_or_ge position run.stop
    · rw [decide_eq_false (Nat.not_lt.mpr hstart), decide_eq_false (Nat.not_le.mpr hinside),
        Bool.or_self, Bool.false_and, if_neg Bool.false_ne_true]
      have := hlow hinside.le
      have := hlowNext hinside
      omega
    · rw [decide_eq_true hbehind, Bool.or_true, Bool.true_and]
      omega

/-- The positions before one are kept or removed. -/
theorem count_kept (h : Within low high removed) (position : ℕ) :
  Nat.count (kept removed ·) position + removedBelow position removed = position
  := by
  induction position with
  | zero => simp [removedBelow]
  | succ position ih =>
    rw [Nat.count_succ, removedBelow_succ h]
    split <;> omega

@[simp]
theorem length_removedBefore (total : ℤ) (removed : List RemovedRun) :
  (removedBefore total removed).length = removed.length
  := by
  induction removed generalizing total with
  | nil => rfl
  | cons run removed ih => rw [removedBefore, length_cons, ih, length_cons]

theorem getElem?_removedBefore (total offset : ℤ) (removed : List RemovedRun) (index : ℕ) :
  (removedBefore (total + offset) removed)[index]? =
    (removedBefore offset removed)[index]?.map (total + ·)
  := by
  induction removed generalizing offset index with
  | nil => rfl
  | cons run removed ih =>
    cases index with
    | zero => rfl
    | succ index =>
      rw [removedBefore, removedBefore, getElem?_cons_succ, getElem?_cons_succ,
        Int.add_assoc, ih]

/-- No run starts before the position: none of its predecessors is removed. -/
theorem removedBelow_of_findIdx {low high position : ℕ} (h : Within low high removed)
    (hnone : removed.findIdx (fun run => (position : ℤ) ≤ run.start) = 0) :
  removedBelow position removed = 0
  := by
  cases removed with
  | nil => rfl
  | cons run removed =>
    by_cases hstart : position ≤ run.start
    · have hwithin : Within run.start high (run :: removed) := ⟨le_rfl, h.2⟩
      exact removedBelow_eq_zero hwithin hstart
    · simp [findIdx_cons, hstart] at hnone

/-- The run in whose place, or behind which, a position lands. -/
theorem exists_run_of_findIdx {position index : ℕ}
    (hindex : removed.findIdx (fun run => (position : ℤ) ≤ run.start) = index + 1) :
  ∃ run before, removed[index]? = some run ∧ (removedBefore 0 removed)[index]? = some before ∧
    removed.head?.any (·.start < position)
  := by
  have hlength : index < removed.length := by
    have := @findIdx_le_length _ (fun run : RemovedRun => (position : ℤ) ≤ run.start) removed
    omega
  have hlength' : index < (removedBefore 0 removed).length := by simpa using hlength
  refine ⟨removed[index], (removedBefore 0 removed)[index], getElem?_eq_getElem _,
    getElem?_eq_getElem _, ?_⟩
  cases removed with
  | nil => cases hlength
  | cons run removed =>
    by_cases hstart : position ≤ run.start
    · simp [findIdx_cons, hstart] at hindex
    · simpa using hstart

/-- A position lands as many positions earlier as there are positions before it in the runs. -/
theorem PositionRemap.apply_of (h : Within low high removed) (position : ℕ) :
  (PositionRemap.of removed).apply position = position - removedBelow position removed
  := by
  induction removed generalizing low with
  | nil => simp [PositionRemap.of, PositionRemap.apply, removedBelow]
  | cons run removed ih =>
    have hbelow : removedBelow position (run :: removed) =
        min position run.stop - min position run.start + removedBelow position removed := rfl
    obtain ⟨-, hrun, hrest⟩ := h
    by_cases hstart : (position : ℤ) ≤ run.start
    · have hindex : (run :: removed).findIdx (fun run => (position : ℤ) ≤ run.start) = 0 := by
        rw [findIdx_cons, decide_eq_true hstart, cond_true]
      have hwithin : Within run.start high (run :: removed) := ⟨le_rfl, hrun, hrest⟩
      have hzero : removedBelow position (run :: removed) = 0 :=
        removedBelow_eq_zero hwithin (by omega)
      simp only [PositionRemap.of, PositionRemap.apply, hindex, hzero]
      omega
    · have hindex : (run :: removed).findIdx (fun run => (position : ℤ) ≤ run.start) =
          removed.findIdx (fun run => (position : ℤ) ≤ run.start) + 1 := by
        rw [findIdx_cons, decide_eq_false hstart, cond_false]
      have ih := ih hrest
      simp only [PositionRemap.of, PositionRemap.apply, hindex] at ih ⊢
      cases hrestIndex : removed.findIdx (fun run => (position : ℤ) ≤ run.start) with
      | zero =>
        have hzero := removedBelow_of_findIdx hrest hrestIndex
        simp only [Hyphenation.removedBefore, getElem?_cons_zero]
        omega
      | succ index =>
        obtain ⟨last, before, hlast, hbefore, hhead⟩ := exists_run_of_findIdx hrestIndex
        have hstop : run.stop ≤ position := by
          cases removed with
          | nil => cases hlast
          | cons first removed =>
            have hfirst := hrest.1
            simp at hhead
            omega
        have hsums : (Hyphenation.removedBefore (0 + (run.stop - run.start)) removed)[index]? =
            some (run.stop - run.start + before) := by
          rw [Int.add_comm, getElem?_removedBefore, hbefore]
          rfl
        simp only [hrestIndex, hlast, hbefore] at ih
        simp only [Hyphenation.removedBefore, getElem?_cons_succ, hlast, hsums]
        omega

/-- Where a position lands is the number of kept positions before it. -/
theorem PositionRemap.apply_eq_count (h : Within low high removed) (position : ℕ) :
  (PositionRemap.of removed).apply position = Nat.count (kept removed ·) position
  := by
  have hcount := count_kept h position
  rw [PositionRemap.apply_of h]
  omega

/-- A position before the text stays. -/
theorem PositionRemap.apply_negative (removed : List RemovedRun) {position : ℤ}
    (h : position ≤ 0) :
  (PositionRemap.of removed).apply position = position
  := by
  have hindex : removed.findIdx (fun run => position ≤ run.start) = 0 := by
    cases removed with
    | nil => rfl
    | cons run removed =>
      have hstart : position ≤ run.start := by omega
      rw [findIdx_cons, decide_eq_true hstart, cond_true]
  simp only [PositionRemap.of, PositionRemap.apply, hindex]

/-- The remap keeps the order of positions. -/
theorem PositionRemap.monotone (h : Within low high removed) :
  Monotone (PositionRemap.of removed).apply
  := by
  intro p q hpq
  obtain hp | hp := le_total p 0
  · rw [apply_negative removed hp]
    obtain hq | hq := le_total q 0
    · rwa [apply_negative removed hq]
    · obtain ⟨n, rfl⟩ := Int.eq_ofNat_of_zero_le hq
      rw [apply_eq_count h]
      omega
  · obtain ⟨m, rfl⟩ := Int.eq_ofNat_of_zero_le hp
    obtain ⟨n, rfl⟩ := Int.eq_ofNat_of_zero_le (le_trans hp hpq)
    rw [apply_eq_count h, apply_eq_count h, Int.ofNat_le]
    exact Nat.count_monotone _ (Int.ofNat_le.mp hpq)

/-- Rejoining takes disjoint runs out of a text, in order, and leaves the rest; a range of the
text covers, once its bounds are moved, what is left of what it covered. -/
theorem rejoinHyphenatedWords_remap (spaceIsBreak : Bool) (text : List Char) :
  let s := Bytes.rejoinHyphenatedWords spaceIsBreak (encode text)
  let left := keepFrom (kept s.removed) 0 text
  let remap := (PositionRemap.of s.removed).apply
  (s.removed.Pairwise fun run next => run.stop ≤ next.start) ∧
    (∀ run ∈ s.removed, run.start < run.stop ∧ run.stop ≤ text.length) ∧
    s.out = encode left ∧
    (∀ start stop : ℕ, start ≤ stop → stop ≤ text.length →
      slice (remap start).toNat (remap stop).toNat left =
        keepFrom (kept s.removed) start (slice start stop text)) ∧
    Monotone remap ∧ ∀ position, 0 ≤ position → 0 ≤ remap position
  := by
  intro s left remap
  have hmirrors := Bytes.rejoinHyphenatedWords_mirrors spaceIsBreak text
  have hdeletes := @rejoinLoop_deletes spaceIsBreak 0 text {} [] rfl ⟨Nat.zero_le _, rfl⟩
  rw [List.nil_append] at hdeletes
  have hremoved : s.removed = (rejoinLoop spaceIsBreak 0 text {}).removed := hmirrors.removed
  have hwithin : Within 0 text.length s.removed := hremoved ▸ hdeletes.within
  have hremap : ∀ position : ℕ, remap position = Nat.count (kept s.removed ·) position :=
    PositionRemap.apply_eq_count hwithin
  refine ⟨hwithin.pairwise, fun run hrun => (hwithin.mem hrun).2, ?_, ?_,
    PositionRemap.monotone hwithin, ?_⟩
  · rw [hmirrors.out, hdeletes.out, ← hremoved]
  · intro start stop hle hstop
    rw [hremap, hremap, Int.toNat_natCast, Int.toNat_natCast]
    exact slice_keepFrom _ hle hstop
  · intro position hposition
    obtain ⟨n, rfl⟩ := Int.eq_ofNat_of_zero_le hposition
    rw [hremap]
    exact Int.natCast_nonneg _

end GRParse.Hyphenation
