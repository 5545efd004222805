import GRParse.Chunking.Sentences
import Mathlib.Data.PNat.Basic

/-!
# Packing

`packSpans` packs the code points of a text into spans of at most a budget of tokens: whole
sentences while they fit, words where a sentence does not fit alone, and hard cuts where a
word does not.  The spans it has closed, and the one still pending, lie one behind the other
and leave out nothing but whitespace, whatever the counter counts.
-/

namespace GRParse.Chunking

open Scan List

/-! ### Hard cuts -/

/-- The cut by code points. -/
def boundedCuts (budget : ℕ+) (cut stop : ℕ) : List Span :=
  if cut < stop then
    ⟨cut, min stop (cut + budget)⟩ :: boundedCuts budget (cut + budget) stop
  else []
termination_by stop - cut
decreasing_by
  have := budget.pos
  omega

variable {cut stop : ℕ}

section Measured

variable (counter : TokenCounter) (points : List ℕ) (budget : ℕ+)

def tokensIn (span : Span) : ℤ :=
  counter.countPoints (slice points span)

/-- The doubling loop of the measured cut: an end that fits, or the least one, and one behind
it that is known not to, or is out of reach. -/
def growPiece (cut stop fits : ℕ) (step : ℕ+) : ℕ × ℕ :=
  if fits < stop then
    let probe := min stop (fits + step)
    if tokensIn counter points ⟨cut, probe⟩ > budget then (fits, probe)
    else growPiece cut stop probe (step * 2)
  else (fits, stop + 1)
termination_by stop - fits
decreasing_by
  have := step.pos
  omega

/-- The binary search of the measured cut. -/
def bisectPiece (cut stop fits beyond : ℕ) : ℕ :=
  if beyond ≤ stop ∧ beyond - fits > 1 then
    let middle := fits + (beyond - fits) / 2
    if tokensIn counter points ⟨cut, middle⟩ ≤ budget then bisectPiece cut stop middle beyond
    else bisectPiece cut stop fits middle
  else fits
termination_by beyond - fits

/-- Where the piece that starts at `cut` ends. -/
def measuredEnd (cut stop : ℕ) : ℕ :=
  let grown := growPiece counter points budget cut stop (cut + 1) 1
  bisectPiece counter points budget cut stop grown.1 grown.2

theorem growPiece_bounds {cut stop fits : ℕ} (h : fits ≤ stop) (step : ℕ+) :
  fits ≤ (growPiece counter points budget cut stop fits step).1 ∧
    (growPiece counter points budget cut stop fits step).1 ≤ stop
  := by
  fun_induction growPiece counter points budget cut stop fits step with
  | case1 => exact ⟨le_rfl, h⟩
  | case2 fits step hlt probe _ ih =>
    obtain ⟨hprobe, hstop⟩ := ih (min_le_left _ _)
    have : fits ≤ probe := le_min h (Nat.le_add_right _ _)
    exact ⟨this.trans hprobe, hstop⟩
  | case3 => exact ⟨le_rfl, h⟩

theorem bisectPiece_bounds {cut stop fits beyond : ℕ} (h : fits ≤ stop) :
  fits ≤ bisectPiece counter points budget cut stop fits beyond ∧
    bisectPiece counter points budget cut stop fits beyond ≤ stop
  := by
  fun_induction bisectPiece counter points budget cut stop fits beyond with
  | case1 fits beyond hover middle _ ih =>
    obtain ⟨hmiddle, hstop⟩ := ih (by omega)
    exact ⟨by omega, hstop⟩
  | case2 fits beyond hover middle _ ih => exact ih h
  | case3 => exact ⟨le_rfl, h⟩

/-- A piece holds a code point at least, and ends in the word. -/
theorem measuredEnd_bounds (h : cut < stop) :
  cut < measuredEnd counter points budget cut stop ∧
    measuredEnd counter points budget cut stop ≤ stop
  := by
  obtain ⟨hgrown, hstop⟩ := growPiece_bounds counter points budget h 1
  obtain ⟨hbisected, hstop'⟩ := bisectPiece_bounds counter points budget
    hstop
  exact ⟨lt_of_lt_of_le hgrown hbisected, hstop'⟩

/-- The cut that measures. -/
def measuredCuts (cut stop : ℕ) : List Span :=
  if cut < stop then
    let fits := measuredEnd counter points budget cut stop
    ⟨cut, fits⟩ :: measuredCuts fits stop
  else []
termination_by stop - cut
decreasing_by
  obtain ⟨hfits, -⟩ := measuredEnd_bounds counter points budget ‹cut < stop›
  omega

end Measured

/-! ### The packing -/

/-- The pieces that are closed, and the one that may still grow. -/
structure Packing where
  pieces : List Span := []
  pending : Option Span := none

section Packing

variable (counter : TokenCounter) (points : List ℕ) (budget : ℕ+)

/-- `trim`. -/
def trim (span : Span) : Span :=
  let begin := skipWhile isWordishWhitespace points span.begin span.stop
  ⟨begin, dropWhileBack isWordishWhitespace points begin span.stop⟩

/-- `flush`. -/
def flush (s : Packing) : Packing :=
  match s.pending with
  | none => s
  | some span =>
    let span := trim points span
    { pieces := if span.begin < span.stop then s.pieces ++ [span] else s.pieces }

/-- A span that fits alone is put to the pending one, or takes its place. -/
def offer (s : Packing) (span : Span) : Packing :=
  match s.pending with
  | none => { s with pending := some span }
  | some pending =>
    let candidate : Span := ⟨pending.begin, span.stop⟩
    if tokensIn counter points candidate ≤ budget then { s with pending := some candidate }
    else { flush points s with pending := some span }

/-- A word of a sentence that does not fit. -/
def packWord (s : Packing) (word : Span) : Packing :=
  if tokensIn counter points word > budget then
    let s := flush points s
    { s with
      pieces := s.pieces ++
        if counter.codepointBounded then boundedCuts budget word.begin word.stop
        else measuredCuts counter points budget word.begin word.stop }
  else offer counter points budget s word

/-- The words of a sentence that does not fit. -/
def packWords (s : Packing) (index stop : ℕ) : Packing :=
  let begin := skipWhile isWordishWhitespace points index stop
  if begin < stop then
    let wordEnd := skipWhile (fun point => !isWordishWhitespace point) points begin stop
    packWords (packWord counter points budget s ⟨begin, wordEnd⟩) wordEnd stop
  else s
termination_by stop - index
decreasing_by
  have hindex : index ≤ skipWhile isWordishWhitespace points index stop := le_skipWhile ..
  have hword : skipWhile isWordishWhitespace points index stop <
      skipWhile (fun point => !isWordishWhitespace point) points
        (skipWhile isWordishWhitespace points index stop) stop :=
    lt_skipWhile ‹_› (by simpa using skipWhile_stops ‹_›)
  omega

def packSentence (s : Packing) (sentence : Span) : Packing :=
  if tokensIn counter points sentence ≤ budget then offer counter points budget s sentence
  else packWords counter points budget (flush points s) sentence.begin sentence.stop

/-- `pack_spans`. -/
def packSpans : List Span :=
  (flush points ((splitSentences points).foldl (packSentence counter points budget) {})).pieces

end Packing

/-! ### Coverage -/

/-- Spans that lie one behind the other between `start` and `stop` and leave nothing out there
but whitespace. -/
inductive Covers (points : List ℕ) : ℕ → ℕ → List Span → Prop where
  | nil {start stop : ℕ} (h : start ≤ stop)
      (blank : ∀ k, start ≤ k → k < stop → isWordishWhitespace (itemAt points k) = true) :
    Covers points start stop []
  | cons {start stop : ℕ} {span : Span} {spans : List Span} (h : start ≤ span.begin)
      (blank : ∀ k, start ≤ k → k < span.begin → isWordishWhitespace (itemAt points k) = true)
      (hspan : span.begin < span.stop) (rest : Covers points span.stop stop spans) :
    Covers points start stop (span :: spans)

namespace Covers

variable {points : List ℕ} {start middle stop : ℕ} {spans spans' : List Span}

theorem refl (points : List ℕ) (start : ℕ) :
  Covers points start start []
  := .nil le_rfl fun _ hk hlt => absurd (hk.trans_lt hlt) (lt_irrefl _)

theorem le (h : Covers points start stop spans) :
  start ≤ stop
  := by
  induction h with
  | nil h => exact h
  | cons h _ hspan _ ih => omega

/-- Whitespace in front does not matter. -/
theorem extend (h : start ≤ middle)
    (blank : ∀ k, start ≤ k → k < middle → isWordishWhitespace (itemAt points k) = true)
    (hspans : Covers points middle stop spans) :
  Covers points start stop spans
  := by
  cases hspans with
  | nil hstop blank' =>
    refine .nil (h.trans hstop) fun k hk hk' => ?_
    obtain hlt | hge := lt_or_ge k middle
    · exact blank k hk hlt
    · exact blank' k hge hk'
  | cons hbegin blank' hspan rest =>
    refine .cons (h.trans hbegin) (fun k hk hk' => ?_) hspan rest
    obtain hlt | hge := lt_or_ge k middle
    · exact blank k hk hlt
    · exact blank' k hge hk'

theorem append (h : Covers points start middle spans) (h' : Covers points middle stop spans') :
  Covers points start stop (spans ++ spans')
  := by
  induction h with
  | nil h blank => exact extend h blank h'
  | cons h blank hspan _ ih => exact .cons h blank hspan (ih h')

theorem single (h : start ≤ middle)
    (blank : ∀ k, start ≤ k → k < middle → isWordishWhitespace (itemAt points k) = true)
    (hspan : middle < stop) :
  Covers points start stop [⟨middle, stop⟩]
  := .cons h blank hspan (.refl points stop)

/-- What tiles a range covers it. -/
theorem of_tiles (h : Tiles start stop spans) :
  Covers points start stop spans
  := by
  induction h with
  | nil start => exact .refl points start
  | cons h _ ih => exact .cons le_rfl (fun _ hk hlt => absurd (hk.trans_lt hlt) (lt_irrefl _)) h ih

/-- The spans are not empty and lie in the range. -/
theorem bounds (h : Covers points start stop spans) {span : Span} (hspan : span ∈ spans) :
  start ≤ span.begin ∧ span.begin < span.stop ∧ span.stop ≤ stop
  := by
  induction h with
  | nil => cases hspan
  | cons h _ hlt rest ih =>
    obtain rfl | hmem := mem_cons.mp hspan
    · exact ⟨h, hlt, rest.le⟩
    · obtain ⟨hbegin, hlt', hstop⟩ := ih hmem
      exact ⟨by omega, hlt', hstop⟩

/-- Each span ends before the next one begins. -/
theorem pairwise (h : Covers points start stop spans) :
  spans.Pairwise fun before after => before.stop ≤ after.begin
  := by
  induction h with
  | nil => exact .nil
  | cons _ _ _ rest ih =>
    refine .cons (fun after hafter => ?_) ih
    exact (rest.bounds hafter).1

/-- What is not whitespace lies in a span. -/
theorem exists_mem (h : Covers points start stop spans) {k : ℕ} (hstart : start ≤ k)
    (hstop : k < stop) (hk : isWordishWhitespace (itemAt points k) = false) :
  ∃ span ∈ spans, span.begin ≤ k ∧ k < span.stop
  := by
  induction h with
  | nil _ blank =>
    have := blank k hstart hstop
    simp [hk] at this
  | @cons start stop span spans _ blank _ _ ih =>
    obtain hlt | hge := lt_or_ge k span.begin
    · have := blank k hstart hlt
      simp [hk] at this
    · obtain hin | hbehind := lt_or_ge k span.stop
      · exact ⟨span, mem_cons_self, hge, hin⟩
      · obtain ⟨other, hother, hk'⟩ := ih hbehind hstop
        exact ⟨other, mem_cons_of_mem _ hother, hk'⟩

/-- And in no other one. -/
theorem eq_of_mem (h : Covers points start stop spans) {span other : Span} (hspan : span ∈ spans)
    (hother : other ∈ spans) {k : ℕ} (hk : span.begin ≤ k ∧ k < span.stop)
    (hk' : other.begin ≤ k ∧ k < other.stop) :
  span = other
  := by
  induction h with
  | nil => cases hspan
  | @cons start stop first spans _ _ _ rest ih =>
    obtain rfl | hspan' := mem_cons.mp hspan
    · obtain rfl | hother' := mem_cons.mp hother
      · rfl
      · have := (rest.bounds hother').1
        omega
    · obtain rfl | hother' := mem_cons.mp hother
      · have := (rest.bounds hspan').1
        omega
      · exact ih hspan' hother'

end Covers

theorem tiles_boundedCuts (budget : ℕ+) (h : cut ≤ stop) :
  Tiles cut stop (boundedCuts budget cut stop)
  := by
  have := budget.pos
  fun_induction boundedCuts budget cut stop with
  | case1 cut hlt ih =>
    refine .cons (by omega) ?_
    obtain hle | hgt := le_or_gt (cut + budget) stop
    · rw [min_eq_right hle]
      exact ih hle
    · rw [min_eq_left hgt.le, boundedCuts, if_neg (by omega)]
      exact .nil stop
  | case2 cut hge =>
    obtain rfl : cut = stop := by omega
    exact .nil cut

section Packing

variable (counter : TokenCounter) {points : List ℕ} (budget : ℕ+)

theorem tiles_measuredCuts (h : cut ≤ stop) :
  Tiles cut stop (measuredCuts counter points budget cut stop)
  := by
  fun_induction measuredCuts counter points budget cut stop with
  | case1 cut hlt fits ih =>
    obtain ⟨hfits, hstop⟩ := measuredEnd_bounds counter points budget hlt
    exact .cons hfits (ih hstop)
  | case2 cut hge =>
    obtain rfl : cut = stop := by omega
    exact .nil cut

/-- The closed pieces and the pending one cover the code points before an index. -/
def Packed (points : List ℕ) (s : Packing) (index : ℕ) : Prop :=
  ∃ middle, Covers points 0 middle s.pieces ∧ Covers points middle index s.pending.toList

variable {s : Packing} {index stop : ℕ}

theorem covers_trim {start : ℕ} {span : Span} (h : Covers points start stop [span]) :
  Covers points start stop
    (if (trim points span).begin < (trim points span).stop then [trim points span] else [])
  := by
  cases h with
  | cons hbegin blank hspan rest =>
    cases rest with
    | nil hstop blank' =>
      have hskip : span.begin ≤ (trim points span).begin := le_skipWhile ..
      have hskipped : ∀ k, start ≤ k → k < (trim points span).begin →
          isWordishWhitespace (itemAt points k) = true := by
        intro k hk hlt
        obtain hbefore | hin := lt_or_ge k span.begin
        · exact blank k hk hbefore
        · exact of_lt_skipWhile hin hlt
      have hdropped : ∀ k, (trim points span).stop ≤ k → k < stop →
          isWordishWhitespace (itemAt points k) = true := by
        intro k hk hlt
        obtain hin | hbehind := lt_or_ge k span.stop
        · exact of_dropWhileBack_le hin hk
        · exact blank' k hbehind hlt
      have hback : (trim points span).stop ≤ span.stop := dropWhileBack_le ..
      split
      next hlt => exact .cons (hbegin.trans hskip) hskipped hlt (.nil (hback.trans hstop) hdropped)
      next hge =>
        refine .nil (by omega) fun k hk hlt => ?_
        obtain hbefore | hbehind := lt_or_ge k (trim points span).begin
        · exact hskipped k hk hbefore
        · exact hdropped k (by omega) hlt

/-- Closing the pending piece keeps what is covered. -/
theorem Packed.flush (h : Packed points s index) :
  Covers points 0 index (flush points s).pieces ∧ (flush points s).pending = none
  := by
  obtain ⟨middle, hpieces, hpending⟩ := h
  unfold Chunking.flush
  cases hs : s.pending with
  | none =>
    rw [hs] at hpending
    refine ⟨?_, hs⟩
    simpa using hpieces.append hpending
  | some span =>
    rw [hs] at hpending
    have htrimmed := hpieces.append (covers_trim hpending)
    refine ⟨?_, rfl⟩
    dsimp only
    split
    next hlt => rwa [if_pos hlt] at htrimmed
    next hge => rwa [if_neg hge, append_nil] at htrimmed

theorem Packed.offer (h : Packed points s index) {span : Span}
    (hspan : Covers points index stop [span]) :
  Packed points (offer counter points budget s span) stop
  := by
  obtain ⟨hflushed, -⟩ := h.flush
  obtain ⟨middle, hpieces, hpending⟩ := h
  unfold Chunking.offer
  cases hs : s.pending with
  | none =>
    rw [hs] at hpending
    refine ⟨index, ?_, hspan⟩
    simpa using hpieces.append hpending
  | some pending =>
    rw [hs] at hpending
    dsimp only
    split
    next =>
      refine ⟨middle, hpieces, ?_⟩
      cases hpending with
      | cons hbegin blank hlt rest =>
        cases hspan with
        | cons hbegin' _ hlt' rest' =>
          have hwide : pending.begin < span.stop := by
            have := rest.le
            omega
          exact .cons hbegin blank hwide rest'
    next => exact ⟨index, hflushed, hspan⟩

theorem Packed.packWord (h : Packed points s index) {word : Span}
    (hword : Covers points index stop [word]) (hstop : word.stop = stop) :
  Packed points (packWord counter points budget s word) stop
  := by
  unfold Chunking.packWord
  split
  next =>
    obtain ⟨hflushed, hnone⟩ := h.flush
    cases hword with
    | cons hbegin blank hlt rest =>
      have hcuts : Tiles word.begin word.stop
          (if counter.codepointBounded then boundedCuts budget word.begin word.stop
            else measuredCuts counter points budget word.begin word.stop) := by
        split
        · exact tiles_boundedCuts budget hlt.le
        · exact tiles_measuredCuts counter budget hlt.le
      rw [← hstop]
      refine ⟨word.stop, hflushed.append ((Covers.of_tiles hcuts).extend hbegin blank), ?_⟩
      dsimp only
      rw [hnone]
      exact .refl points word.stop
  next => exact h.offer counter budget hword

theorem Packed.packWords (h : Packed points s index) (hindex : index ≤ stop) :
  Packed points (packWords counter points budget s index stop) stop
  := by
  fun_induction Chunking.packWords counter points budget s index stop with
  | case1 s index begin hlt wordEnd ih =>
    have hbegin : index ≤ begin := le_skipWhile ..
    have hstops : isWordishWhitespace (itemAt points begin) = false := skipWhile_stops hlt
    have hword : begin < wordEnd := lt_skipWhile hlt (by simpa using hstops)
    apply ih
    · apply h.packWord counter budget _ rfl
      exact .single hbegin (fun k hk hk' => of_lt_skipWhile hk hk') hword
    · exact skipWhile_le hlt.le
  | case2 s index begin hge =>
    have hbegin : begin ≤ stop := skipWhile_le hindex
    obtain ⟨middle, hpieces, hpending⟩ := h
    refine ⟨middle, hpieces, ?_⟩
    rw [← append_nil s.pending.toList]
    refine hpending.append (.nil hindex fun k hk hk' => ?_)
    exact of_lt_skipWhile hk (lt_of_lt_of_le hk' (not_lt.mp hge))

theorem Packed.packSentence {sentence : Span} (h : Packed points s sentence.begin)
    (hsentence : sentence.begin < sentence.stop) :
  Packed points (packSentence counter points budget s sentence) sentence.stop
  := by
  unfold Chunking.packSentence
  split
  next =>
    refine h.offer counter budget (.single le_rfl (fun k hk hlt => ?_) hsentence)
    exact absurd (hk.trans_lt hlt) (lt_irrefl _)
  next =>
    obtain ⟨hflushed, hnone⟩ := h.flush
    refine Packed.packWords counter budget ⟨sentence.begin, hflushed, ?_⟩ hsentence.le
    rw [hnone]
    exact .refl points sentence.begin

/-- Packing covers the text. -/
theorem covers_packSpans (points : List ℕ) :
  Covers points 0 points.length (packSpans counter points budget)
  := by
  have hfold : ∀ start stop spans, Tiles start stop spans → ∀ s, Packed points s start →
      Packed points (spans.foldl (packSentence counter points budget) s) stop := by
    intro start stop spans htiles
    induction htiles with
    | nil => exact fun s h => h
    | cons hlt _ ih => exact fun s h => ih _ (h.packSentence counter budget hlt)
  have hempty : Packed points {} 0 := ⟨0, .refl points 0, .refl points 0⟩
  exact (hfold _ _ _ (tiles_splitSentences points) {} hempty).flush.1

end Packing

/-! ### The budget -/

/-- What is trimmed from a span counts nothing. -/
theorem tokensIn_trim (points : List ℕ) (span : Span) (h : span.begin ≤ span.stop) :
  tokensIn .wordish points (trim points span) = tokensIn .wordish points span
  := by
  have hbegin : span.begin ≤ (trim points span).begin := le_skipWhile ..
  have hmiddle : (trim points span).begin ≤ span.stop := skipWhile_le h
  have hle : (trim points span).begin ≤ (trim points span).stop := le_dropWhileBack hmiddle
  have hstop : (trim points span).stop ≤ span.stop := dropWhileBack_le ..
  have hbefore : ∀ value ∈ slice points ⟨span.begin, (trim points span).begin⟩,
      isWordishWhitespace value = true := by
    intro value hvalue
    obtain ⟨k, hk, hk', rfl⟩ := exists_itemAt_of_mem_slice hvalue
    exact of_lt_skipWhile hk hk'
  have hbehind : ∀ value ∈ slice points ⟨(trim points span).stop, span.stop⟩,
      isWordishWhitespace value = true := by
    intro value hvalue
    obtain ⟨k, hk, hk', rfl⟩ := exists_itemAt_of_mem_slice hvalue
    exact of_dropWhileBack_le hk' hk
  have hsplit : slice points span = slice points ⟨span.begin, (trim points span).begin⟩ ++
      (slice points (trim points span) ++ slice points ⟨(trim points span).stop, span.stop⟩) := by
    rw [slice_append points hbegin hmiddle, slice_append points hle hstop]
  have hcount : countTokens (slice points span) =
      countTokens (slice points (trim points span)) := by
    rw [hsplit, countTokens_append_left hbefore, countTokens_append_right _ hbehind]
  simp only [tokensIn, TokenCounter.wordish, hcount]

/-- The pieces of the cut by code points fit. -/
theorem tokensIn_boundedCuts (points : List ℕ) (budget : ℕ+) {span : Span}
    (h : span ∈ boundedCuts budget cut stop) :
  tokensIn .wordish points span ≤ budget
  := by
  fun_induction boundedCuts budget cut stop with
  | case1 cut hlt ih =>
    obtain rfl | hmem := mem_cons.mp h
    · have hcount := (countTokens_le_length (slice points ⟨cut, min stop (cut + budget)⟩)).trans
        (length_slice_le ..)
      dsimp only at hcount
      simp only [tokensIn, TokenCounter.wordish]
      omega
    · exact ih hmem
  | case2 => cases h

section Budget

variable {points : List ℕ} {budget : ℕ+}

/-- All pieces fit the budget, and so does the pending one. -/
structure WithinBudget (points : List ℕ) (budget : ℕ+) (s : Packing) : Prop where
  pieces : ∀ span ∈ s.pieces, tokensIn .wordish points span ≤ budget
  pending : ∀ span ∈ s.pending, tokensIn .wordish points span ≤ budget

variable {s : Packing} {index stop : ℕ}

theorem Packed.ordered (h : Packed points s index) {span : Span} (hspan : span ∈ s.pending) :
  span.begin ≤ span.stop
  := by
  obtain ⟨middle, -, hpending⟩ := h
  exact (hpending.bounds (Option.mem_toList.mpr hspan)).2.1.le

theorem WithinBudget.flush (h : WithinBudget points budget s) (hpacked : Packed points s index) :
  WithinBudget points budget (flush points s)
  := by
  unfold Chunking.flush
  cases hs : s.pending with
  | none => exact h
  | some span =>
    refine ⟨fun piece hpiece => ?_, by simp⟩
    dsimp only at hpiece
    split at hpiece
    · obtain hold | hnew := mem_append.mp hpiece
      · exact h.pieces piece hold
      · rw [mem_singleton.mp hnew, tokensIn_trim points span (hpacked.ordered hs)]
        exact h.pending span hs
    · exact h.pieces piece hpiece

theorem WithinBudget.offer (h : WithinBudget points budget s) (hpacked : Packed points s index)
    {span : Span} (hspan : tokensIn .wordish points span ≤ budget) :
  WithinBudget points budget (offer .wordish points budget s span)
  := by
  unfold Chunking.offer
  cases hs : s.pending with
  | none => exact ⟨h.pieces, by simpa using hspan⟩
  | some pending =>
    dsimp only
    split
    next hfits => exact ⟨h.pieces, by simpa using hfits⟩
    next => exact ⟨(h.flush hpacked).pieces, by simpa using hspan⟩

theorem WithinBudget.packWord (h : WithinBudget points budget s)
    (hpacked : Packed points s index) (word : Span) :
  WithinBudget points budget (packWord .wordish points budget s word)
  := by
  unfold Chunking.packWord
  split
  next =>
    have hflushed := h.flush hpacked
    refine ⟨fun piece hpiece => ?_, hflushed.pending⟩
    obtain hold | hcut := mem_append.mp hpiece
    · exact hflushed.pieces piece hold
    · exact tokensIn_boundedCuts points budget hcut
  next hfits => exact h.offer hpacked (not_lt.mp hfits)

theorem WithinBudget.packWords (h : WithinBudget points budget s)
    (hpacked : Packed points s index) :
  WithinBudget points budget (packWords .wordish points budget s index stop)
  := by
  fun_induction Chunking.packWords .wordish points budget s index stop with
  | case1 s index begin hlt wordEnd ih =>
    have hbegin : index ≤ begin := le_skipWhile ..
    have hstops : isWordishWhitespace (itemAt points begin) = false := skipWhile_stops hlt
    have hword : begin < wordEnd := lt_skipWhile hlt (by simpa using hstops)
    apply ih (h.packWord hpacked _)
    apply hpacked.packWord _ budget _ rfl
    exact .single hbegin (fun k hk hk' => of_lt_skipWhile hk hk') hword
  | case2 => exact h

theorem WithinBudget.packSentence {sentence : Span} (h : WithinBudget points budget s)
    (hpacked : Packed points s sentence.begin) :
  WithinBudget points budget (packSentence .wordish points budget s sentence)
  := by
  unfold Chunking.packSentence
  split
  next hfits => exact h.offer hpacked hfits
  next =>
    obtain ⟨hflushed, hnone⟩ := hpacked.flush
    refine (h.flush hpacked).packWords ⟨sentence.begin, hflushed, ?_⟩
    rw [hnone]
    exact .refl points sentence.begin

/-- Under `wordish/1` every piece fits. -/
theorem tokensIn_packSpans_le {span : Span} (h : span ∈ packSpans .wordish points budget) :
  tokensIn .wordish points span ≤ budget
  := by
  have hfold : ∀ start stop spans, Tiles start stop spans → ∀ s, Packed points s start →
      WithinBudget points budget s →
      Packed points (spans.foldl (packSentence .wordish points budget) s) stop ∧
        WithinBudget points budget (spans.foldl (packSentence .wordish points budget) s) := by
    intro start stop spans htiles
    induction htiles with
    | nil => exact fun s hpacked hwithin => ⟨hpacked, hwithin⟩
    | cons hlt _ ih =>
      exact fun s hpacked hwithin =>
        ih _ (hpacked.packSentence _ budget hlt) (hwithin.packSentence hpacked)
  have hempty : Packed points {} 0 := ⟨0, .refl points 0, .refl points 0⟩
  obtain ⟨hpacked, hwithin⟩ :=
    hfold _ _ _ (tiles_splitSentences points) {} hempty ⟨by simp, by simp⟩
  exact (hwithin.flush hpacked).pieces span h

end Budget

end GRParse.Chunking
