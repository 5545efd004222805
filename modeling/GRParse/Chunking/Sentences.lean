import GRParse.Chunking.TokenCounter
import GRParse.Lib.Scan

/-!
# Sentences

A sentence ends behind a terminator and its closers when whitespace or the end of the text
comes next, and takes the whitespace with it.  So the sentences of a text tile it.
-/

namespace GRParse.Chunking

open Scan List

/-- A half-open range of indices of code points. -/
structure Span where
  begin : ℕ
  stop : ℕ
  deriving DecidableEq, Repr

/-- The code points of a span. -/
def slice (points : List ℕ) (span : Span) : List ℕ :=
  (points.drop span.begin).take (span.stop - span.begin)

/-- A span may be cut anywhere. -/
theorem slice_append (points : List ℕ) {start middle stop : ℕ} (h : start ≤ middle)
    (h' : middle ≤ stop) :
  slice points ⟨start, stop⟩ = slice points ⟨start, middle⟩ ++ slice points ⟨middle, stop⟩
  := by
  unfold slice
  dsimp only
  obtain ⟨k, rfl⟩ := Nat.exists_eq_add_of_le h
  obtain ⟨l, rfl⟩ := Nat.exists_eq_add_of_le h'
  rw [show start + k + l - start = k + l by omega, show start + k - start = k by omega,
    show start + k + l - (start + k) = l by omega, take_add, drop_drop]

/-- The code points of a span are those at its indices. -/
theorem exists_itemAt_of_mem_slice {points : List ℕ} {span : Span} {value : ℕ}
    (h : value ∈ slice points span) :
  ∃ k, span.begin ≤ k ∧ k < span.stop ∧ itemAt points k = value
  := by
  obtain ⟨i, hi, rfl⟩ := mem_iff_getElem.mp h
  rw [slice, length_take, length_drop] at hi
  refine ⟨span.begin + i, by omega, by omega, ?_⟩
  rw [itemAt, getD_eq_getElem _ _ (by omega)]
  simp [slice]

theorem length_slice_le (points : List ℕ) (span : Span) :
  (slice points span).length ≤ span.stop - span.begin
  := length_take_le _ _

def isTerminator (codePoint : ℕ) : Bool :=
  codePoint = 0x2E || codePoint = 0x21 || codePoint = 0x3F || codePoint = 0x2026

def isCloser (codePoint : ℕ) : Bool :=
  codePoint = 0x27 || codePoint = 0x22 || codePoint = 0x29 || codePoint = 0x5D

/-- The loop of `split_sentences`: the sentences from `start` on, none of which ends before
`index`. -/
def sentencesFrom (points : List ℕ) (start index : ℕ) : List Span :=
  if index < points.length then
    if isTerminator (itemAt points index) then
      let after := skipWhile isCloser points (index + 1) points.length
      if after < points.length && !isWordishWhitespace (itemAt points after) then
        sentencesFrom points start after
      else
        let next := skipWhile isWordishWhitespace points after points.length
        ⟨start, next⟩ :: sentencesFrom points next next
    else sentencesFrom points start (index + 1)
  else if start < points.length then [⟨start, points.length⟩]
  else []
termination_by points.length - index
decreasing_by
  all_goals
    have hafter : index + 1 ≤ skipWhile isCloser points (index + 1) points.length :=
      le_skipWhile ..
    have hnext : _ ≤ skipWhile isWordishWhitespace points
        (skipWhile isCloser points (index + 1) points.length) points.length := le_skipWhile ..
    omega

/-- `split_sentences`. -/
def splitSentences (points : List ℕ) : List Span :=
  sentencesFrom points 0 0

/-- Spans that lie one behind the other and leave nothing out from `start` to `stop`. -/
inductive Tiles : ℕ → ℕ → List Span → Prop where
  | nil (start : ℕ) : Tiles start start []
  | cons {start next stop : ℕ} {spans : List Span} (h : start < next) (rest : Tiles next stop spans) :
    Tiles start stop (⟨start, next⟩ :: spans)

theorem tiles_sentencesFrom {points : List ℕ} {start index : ℕ} (hstart : start ≤ index)
    (hindex : index ≤ points.length) :
  Tiles start points.length (sentencesFrom points start index)
  := by
  fun_induction sentencesFrom points start index with
  | case1 start index hlt hterminator after hglued ih =>
    have hafter : index + 1 ≤ after := le_skipWhile ..
    simp only [Bool.and_eq_true, decide_eq_true_eq] at hglued
    exact ih (by omega) (by omega)
  | case2 start index hlt hterminator after hboundary next ih =>
    have hafter : index + 1 ≤ after := le_skipWhile ..
    have hnext : after ≤ next := le_skipWhile ..
    have hend : next ≤ points.length := skipWhile_le (skipWhile_le hlt)
    exact .cons (by omega) (ih le_rfl hend)
  | case3 start index hlt _ ih => exact ih (by omega) hlt
  | case4 start index hge hlt => exact .cons hlt (.nil _)
  | case5 start index hge hge' =>
    obtain rfl : start = points.length := by omega
    exact .nil _

/-- The sentences tile the text. -/
theorem tiles_splitSentences (points : List ℕ) :
  Tiles 0 points.length (splitSentences points)
  := tiles_sentencesFrom le_rfl (Nat.zero_le _)

end GRParse.Chunking
