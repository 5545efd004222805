import GRParse.Chunking.Packing
import GRParse.Chunking.WorkChunk

/-!
# Hybrid chunks

The hybrid chunker joins chunks under the same headings while they fit a budget of tokens, and
splits the chunks that do not fit.  A chunk is measured in the context of its headings.
-/

namespace GRParse.Chunking

open Scan List

/-- Each heading on a line of its own. -/
def headingsBlock (headings : List (List UInt8)) : List UInt8 :=
  headings.flatMap fun heading => heading ++ [kNewline]

/-- The text with its headings in front. -/
def contextualized (chunk : WorkChunk) : List UInt8 :=
  headingsBlock chunk.headings ++ chunk.text

def headingTokens (counter : TokenCounter) (chunk : WorkChunk) : ℤ :=
  counter.countText (headingsBlock chunk.headings)

/-! ### Merging peers -/

/-- `fold_peer`. -/
def foldPeer (into next : WorkChunk) (mergedText : List UInt8) : WorkChunk where
  text := mergedText
  headings := into.headings
  captions := into.captions ++ next.captions
  docItems := into.docItems ++ next.docItems
  pages := into.pages ∪ next.pages
  offsetsKnown := into.offsetsKnown && next.offsetsKnown
  offsetsComplete := into.offsetsComplete && next.offsetsComplete
  start := if into.offsetsKnown && next.offsetsKnown then min into.start next.start else into.start
  stop := if into.offsetsKnown && next.offsetsKnown then max into.stop next.stop else into.stop
  offsetsExact := false
  minConfidence :=
    match into.minConfidence, next.minConfidence with
    | some confidence, some other => if other < confidence then some other else some confidence
    | none, other => other
    | confidence, none => confidence
  sawDigital := into.sawDigital || next.sawDigital
  sawOcr := into.sawOcr || next.sawOcr
  languages := into.languages ∪ next.languages
  languageUnknown := into.languageUnknown || next.languageUnknown

variable (counter : TokenCounter) (maxTokens : ℤ)

/-- A chunk is joined to the last one when both stand under the same headings and the two fit
together. -/
def mergePeer (merged : List WorkChunk) (chunk : WorkChunk) : List WorkChunk :=
  match merged.getLast? with
  | some last =>
    let candidate := last.text ++ kNewline :: chunk.text
    if last.headings = chunk.headings ∧
        counter.countText (contextualized { headings := chunk.headings, text := candidate }) ≤
          maxTokens then
      merged.dropLast ++ [foldPeer last chunk candidate]
    else merged ++ [chunk]
  | none => merged ++ [chunk]

/-- `merge_peers`. -/
def mergePeers (work : List WorkChunk) : List WorkChunk :=
  work.foldl (mergePeer counter maxTokens) []

/-! ### Splitting -/

/-- By how much the worst piece is over, in context. -/
def overflow (block : List UInt8) (points : List ℕ) (pieces : List Span) : ℤ :=
  pieces.foldl (fun overflow piece =>
    max overflow (counter.countText (block ++ encodeUtf8 (slice points piece)) - maxTokens)) 0

/-- The text is packed again with a smaller budget until every piece fits in context; whether
that ended with pieces still over. -/
def shrink (block : List UInt8) (points : List ℕ) (budget : ℕ+) : List Span × Bool :=
  let pieces := packSpans counter points budget
  let excess := overflow counter maxTokens block points pieces
  if hover : excess ≤ 0 then (pieces, false)
  else if hleft : 0 < (budget : ℤ) - excess then
    shrink block points ⟨((budget : ℤ) - excess).toNat, by omega⟩
  else (pieces, true)
termination_by (budget : ℕ)
decreasing_by
  have hpositive : 0 < overflow counter maxTokens block points (packSpans counter points budget) :=
    not_le.mp hover
  rw [PNat.mk_coe]
  omega

/-- The pieces are those of some packing. -/
theorem exists_packSpans_of_shrink (block : List UInt8) (points : List ℕ) (budget : ℕ+) :
  ∃ budget', (shrink counter maxTokens block points budget).1 = packSpans counter points budget'
  := by
  fun_induction shrink counter maxTokens block points budget with
  | case1 budget => exact ⟨budget, rfl⟩
  | case2 _ _ _ _ _ ih => exact ih
  | case3 budget => exact ⟨budget, rfl⟩

/-- A span inside a text. -/
def Span.Inside (points : List ℕ) (span : Span) : Prop :=
  span.begin ≤ span.stop ∧ span.stop ≤ points.length

variable {points : List ℕ}

theorem inside_of_mem_shrink {block : List UInt8} {budget : ℕ+} (span : Span)
    (h : span ∈ (shrink counter maxTokens block points budget).1) :
  span.Inside points
  := by
  obtain ⟨budget', heq⟩ := exists_packSpans_of_shrink counter maxTokens block points budget
  rw [heq] at h
  obtain ⟨-, hlt, hstop⟩ := (covers_packSpans counter budget' points).bounds h
  exact ⟨hlt.le, hstop⟩

theorem length_slice {span : Span} (h : span.Inside points) :
  (slice points span).length = span.stop - span.begin
  := by
  obtain ⟨hbegin, hstop⟩ := h
  rw [slice, length_take, length_drop]
  omega

/-- A range of a decoded text, encoded, is decoded again. -/
theorem decodeUtf8_encodeUtf8_slice (text : List UInt8) (span : Span) :
  decodeUtf8 (encodeUtf8 (slice (decodeUtf8 text) span)) = slice (decodeUtf8 text) span
  := by
  apply decodeUtf8_encodeUtf8
  intro value hvalue
  exact isScalar_of_mem_decodeUtf8 (mem_of_mem_drop (mem_of_mem_take hvalue))

/-- The part of a chunk that a piece of its text makes. -/
def part (chunk : WorkChunk) (piece : Span) (hpiece : piece.Inside (decodeUtf8 chunk.text)) :
    WorkChunk :=
  { chunk with
    text := encodeUtf8 (slice (decodeUtf8 chunk.text) piece)
    offsetsKnown := chunk.offsetsKnown && chunk.offsetsExact
    start := if chunk.offsetsExact then chunk.start + piece.begin else chunk.start
    stop := if chunk.offsetsExact then chunk.start + piece.stop else chunk.stop
    exact_span := by
      intro hexact
      rw [decodeUtf8_encodeUtf8_slice, length_slice hpiece, if_pos hexact, if_pos hexact]
      have := hpiece.1
      omega }

/-- What splitting gives, with the counts of what it left over the budget. -/
structure SplitResult where
  chunks : List WorkChunk := []
  unsplit : ℕ := 0
  stillOver : ℕ := 0

/-- A chunk that fits, or whose headings alone fill the budget, stays whole. -/
def splitChunk (chunk : WorkChunk) : SplitResult :=
  if counter.countText (contextualized chunk) ≤ maxTokens then { chunks := [chunk] }
  else if hbudget : 0 < maxTokens - headingTokens counter chunk then
    let shrunk := shrink counter maxTokens (headingsBlock chunk.headings) (decodeUtf8 chunk.text)
      (Nat.toPNat (maxTokens - headingTokens counter chunk).toNat (by omega))
    { chunks :=
        if shrunk.1.length ≤ 1 then [chunk]
        else shrunk.1.pmap (part chunk) (inside_of_mem_shrink counter maxTokens)
      stillOver := if shrunk.2 then 1 else 0 }
  else { chunks := [chunk], unsplit := 1 }

/-- The parts of one chunk more. -/
def SplitResult.add (split parts : SplitResult) : SplitResult where
  chunks := split.chunks ++ parts.chunks
  unsplit := split.unsplit + parts.unsplit
  stillOver := split.stillOver + parts.stillOver

/-- `split_oversized`. -/
def splitOversized (work : List WorkChunk) : SplitResult :=
  work.foldl (fun split chunk => split.add (splitChunk counter maxTokens chunk)) {}

/-! ### What splitting keeps -/

/-- The code points of a text that are not whitespace. -/
def inked (points : List ℕ) : List ℕ :=
  points.filter fun value => !isWordishWhitespace value

/-- Spans that cover a range hold all its ink, in order. -/
theorem inked_of_covers {start stop : ℕ} {spans : List Span} (h : Covers points start stop spans) :
  spans.flatMap (fun span => inked (slice points span)) = inked (slice points ⟨start, stop⟩)
  := by
  have hblank : ∀ start stop, (∀ k, start ≤ k → k < stop →
      isWordishWhitespace (itemAt points k) = true) → inked (slice points ⟨start, stop⟩) = [] := by
    intro start stop blank
    rw [inked, filter_eq_nil_iff]
    intro value hvalue
    obtain ⟨k, hk, hk', rfl⟩ := exists_itemAt_of_mem_slice hvalue
    simpa using blank k hk hk'
  induction h with
  | nil h blank => exact (hblank _ _ blank).symm
  | @cons start stop span spans h blank hspan rest ih =>
    have hle := rest.le
    rw [flatMap_cons, ih, slice_append points h (hspan.le.trans hle),
      slice_append points hspan.le hle, inked, inked, inked, filter_append,
      filter_append]
    rw [show (slice points ⟨start, span.begin⟩).filter _ = [] from hblank _ _ blank]
    rfl

theorem slice_full (points : List ℕ) :
  slice points ⟨0, points.length⟩ = points
  := by
  simp [slice]

/-- A part slices its own text out of the chunk's span. -/
theorem slice_part (chunk : WorkChunk) (piece : Span)
    (hpiece : piece.Inside (decodeUtf8 chunk.text)) (hexact : chunk.offsetsExact = true) :
  (chunk.start ≤ (part chunk piece hpiece).start ∧ (part chunk piece hpiece).stop ≤ chunk.stop) ∧
    decodeUtf8 (part chunk piece hpiece).text =
      slice (decodeUtf8 chunk.text) ⟨(part chunk piece hpiece).start - chunk.start,
        (part chunk piece hpiece).stop - chunk.start⟩
  := by
  obtain ⟨hstart, hspan⟩ := chunk.exact_span hexact
  obtain ⟨hbegin, hstop⟩ := hpiece
  simp only [part, hexact, if_true, decodeUtf8_encodeUtf8_slice, Nat.add_sub_cancel_left]
  refine ⟨⟨?_, ?_⟩, trivial⟩ <;> omega

/-- The parts of a chunk. -/
theorem chunks_splitChunk (chunk : WorkChunk) :
  (splitChunk counter maxTokens chunk).chunks = [chunk] ∨
    ∃ budget hinside, (splitChunk counter maxTokens chunk).chunks =
      (packSpans counter (decodeUtf8 chunk.text) budget).pmap (part chunk) hinside
  := by
  unfold splitChunk
  split
  next => exact .inl rfl
  next =>
    split
    next hbudget =>
      dsimp only
      split
      next => exact .inl rfl
      next =>
        right
        obtain ⟨budget, heq⟩ := exists_packSpans_of_shrink counter maxTokens
          (headingsBlock chunk.headings) (decodeUtf8 chunk.text)
          (Nat.toPNat (maxTokens - headingTokens counter chunk).toNat (by omega))
        refine ⟨budget, ?_, ?_⟩
        · intro piece hpiece
          rw [← heq] at hpiece
          exact inside_of_mem_shrink counter maxTokens piece hpiece
        · simp only [heq]
    next => exact .inl rfl

theorem splitOversized_append_singleton (work : List WorkChunk) (chunk : WorkChunk) :
  splitOversized counter maxTokens (work ++ [chunk]) =
    (splitOversized counter maxTokens work).add (splitChunk counter maxTokens chunk)
  := by
  rw [splitOversized, foldl_append]
  rfl

theorem chunks_splitOversized (work : List WorkChunk) :
  (splitOversized counter maxTokens work).chunks =
    work.flatMap fun chunk => (splitChunk counter maxTokens chunk).chunks
  := by
  induction work using reverseRecOn with
  | nil => rfl
  | append_singleton work chunk ih =>
    rw [splitOversized_append_singleton, SplitResult.add, ih, flatMap_append]
    simp

/-- The spans of a packing are not empty, lie in the text one behind the other, and each code
point that is not whitespace lies in exactly one of them. -/
structure Packs (points : List ℕ) (pieces : List Span) : Prop where
  nonempty : ∀ span ∈ pieces, span.begin < span.stop ∧ span.stop ≤ points.length
  increasing : pieces.Pairwise fun before after => before.stop ≤ after.begin
  once : ∀ k (h : k < points.length), isWordishWhitespace points[k] = false →
    ∃! span, span ∈ pieces ∧ span.begin ≤ k ∧ k < span.stop

/-- The parts of a chunk have its ink, in order, and say where in the chunk they stand when the
chunk says where it stands itself. -/
structure Splits (chunk : WorkChunk) (parts : List WorkChunk) : Prop where
  ink : parts.flatMap (fun part => inked (decodeUtf8 part.text)) = inked (decodeUtf8 chunk.text)
  offsets : chunk.offsetsExact = true → ∀ part ∈ parts,
    (chunk.start ≤ part.start ∧ part.stop ≤ chunk.stop) ∧
      decodeUtf8 part.text = slice (decodeUtf8 chunk.text)
        ⟨part.start - chunk.start, part.stop - chunk.start⟩

theorem packs_packSpans (points : List ℕ) (budget : ℕ+) :
  Packs points (packSpans counter points budget)
  := by
  have hcovers := covers_packSpans counter budget points
  constructor
  case nonempty => exact fun span hspan => (hcovers.bounds hspan).2
  case increasing => exact hcovers.pairwise
  case once =>
    intro k h hk
    have hitem : itemAt points k = points[k] := getD_eq_getElem _ _ h
    obtain ⟨span, hspan, hin⟩ := hcovers.exists_mem (Nat.zero_le k) h (by rwa [hitem])
    exact ⟨span, ⟨hspan, hin⟩, fun other hother =>
      hcovers.eq_of_mem hother.1 hspan hother.2 hin⟩

theorem splits_splitChunk (chunk : WorkChunk) :
  Splits chunk (splitChunk counter maxTokens chunk).chunks
  := by
  obtain hwhole | ⟨budget, hinside, hparts⟩ := chunks_splitChunk counter maxTokens chunk
  · rw [hwhole]
    constructor
    case ink => simp
    case offsets =>
      intro hexact part hpart
      obtain rfl := mem_singleton.mp hpart
      obtain ⟨hle, hlength⟩ := part.exact_span hexact
      refine ⟨⟨le_rfl, le_rfl⟩, ?_⟩
      rw [Nat.sub_self, hlength, slice_full]
  · rw [hparts]
    constructor
    case ink =>
      have hink := inked_of_covers (covers_packSpans counter budget (decodeUtf8 chunk.text))
      rw [slice_full] at hink
      rw [← hink, flatMap_def, flatMap_def, map_pmap,
        ← pmap_eq_map (p := (·.Inside (decodeUtf8 chunk.text))) hinside]
      congr 1
      apply pmap_congr_left
      intro piece _ _ _
      rw [part, decodeUtf8_encodeUtf8_slice]
    case offsets =>
      intro hexact part' hpart
      obtain ⟨piece, hpiece, rfl⟩ := mem_pmap.mp hpart
      exact slice_part chunk piece (hinside piece hpiece) hexact

/-- Splitting loses nothing, whatever the counter counts. -/
theorem splitting_complete :
  (∀ points budget, Packs points (packSpans counter points budget)) ∧
    ∀ work, (splitOversized counter maxTokens work).chunks =
        work.flatMap (fun chunk => (splitChunk counter maxTokens chunk).chunks) ∧
      ∀ chunk ∈ work, Splits chunk (splitChunk counter maxTokens chunk).chunks
  := by
  refine ⟨packs_packSpans counter, fun work => ⟨chunks_splitOversized counter maxTokens work, ?_⟩⟩
  exact fun chunk _ => splits_splitChunk counter maxTokens chunk

/-! ### The budget of `wordish/1` -/

/-- A newline does not continue a sequence, so the bytes before it are decoded on their own. -/
theorem decodeUtf8_append_newline (before after : List UInt8) :
  decodeUtf8 (before ++ kNewline :: after) = decodeUtf8 before ++ 0x0A :: decodeUtf8 after
  := by
  rw [decodeUtf8_append (by simp; decide)]
  rfl

/-- The headings end with a newline, so the count of a text adds up with theirs. -/
theorem countText_headingsBlock (headings : List (List UInt8)) (text : List UInt8) :
  TokenCounter.wordish.countText (headingsBlock headings ++ text) =
    TokenCounter.wordish.countText (headingsBlock headings) +
      TokenCounter.wordish.countText text
  := by
  have hcount : ∀ before after, countTokens (decodeUtf8 (before ++ kNewline :: after)) =
      countTokens (decodeUtf8 before) + countTokens (decodeUtf8 after) := by
    intro before after
    rw [decodeUtf8_append_newline, countTokens_append_cons (by decide)]
  induction headings with
  | nil => simp [headingsBlock, TokenCounter.wordish, decodeUtf8, decodeFrom, countTokens, countFrom]
  | cons heading headings ih =>
    simp only [TokenCounter.wordish, headingsBlock, flatMap_cons, append_assoc,
      cons_append, nil_append, hcount] at ih ⊢
    push_cast at ih ⊢
    rw [add_assoc, ← ih]

/-- A piece of a text counts in context what the headings and the piece count. -/
theorem countText_piece (headings : List (List UInt8)) (text : List UInt8) (span : Span) :
  TokenCounter.wordish.countText
      (headingsBlock headings ++ encodeUtf8 (slice (decodeUtf8 text) span)) =
    TokenCounter.wordish.countText (headingsBlock headings) +
      tokensIn .wordish (decodeUtf8 text) span
  := by
  rw [countText_headingsBlock]
  congr 1
  show (countTokens _ : ℤ) = countTokens _
  rw [decodeUtf8_encodeUtf8_slice]

/-- Nothing is over when every piece fits beside the headings. -/
theorem overflow_nonpos {block : List UInt8} {pieces : List Span} (h : ∀ piece ∈ pieces,
      counter.countText (block ++ encodeUtf8 (slice points piece)) ≤ maxTokens) :
  overflow counter maxTokens block points pieces ≤ 0
  := by
  induction pieces using reverseRecOn with
  | nil => exact le_rfl
  | append_singleton pieces piece ih =>
    have hpieces := ih fun other hother => h other (mem_append_left _ hother)
    have hpiece := h piece (by simp)
    rw [overflow, foldl_append]
    exact max_le hpieces (by omega)

/-- The counts add up, so the first packing fits. -/
theorem shrink_wordish (headings : List (List UInt8)) (text : List UInt8) (budget : ℕ+)
    (h : TokenCounter.wordish.countText (headingsBlock headings) + budget ≤ maxTokens) :
  shrink .wordish maxTokens (headingsBlock headings) (decodeUtf8 text) budget =
    (packSpans .wordish (decodeUtf8 text) budget, false)
  := by
  rw [shrink]
  apply dif_pos
  apply overflow_nonpos
  intro piece hpiece
  rw [countText_piece]
  have := tokensIn_packSpans_le hpiece
  omega

/-- What lies between the spans counts nothing, so a range with one span at most counts what
the span counts. -/
theorem countTokens_of_covers {start stop : ℕ} {spans : List Span}
    (h : Covers points start stop spans) (hone : spans.length ≤ 1) {budget : ℕ}
    (hbudget : ∀ span ∈ spans, tokensIn .wordish points span ≤ budget) :
  countTokens (slice points ⟨start, stop⟩) ≤ budget
  := by
  have hblank : ∀ {start stop}, (∀ k, start ≤ k → k < stop →
      isWordishWhitespace (itemAt points k) = true) →
      ∀ value ∈ slice points ⟨start, stop⟩, isWordishWhitespace value = true := by
    intro start stop blank value hvalue
    obtain ⟨k, hk, hk', rfl⟩ := exists_itemAt_of_mem_slice hvalue
    exact blank k hk hk'
  cases h with
  | nil h blank =>
    have hcount := countTokens_append_left (hblank blank) []
    rw [append_nil] at hcount
    rw [hcount]
    exact Nat.zero_le _
  | @cons _ _ span spans h blank hspan rest =>
    obtain rfl : spans = [] := length_eq_zero_iff.mp (by simpa using hone)
    cases rest with
    | nil hle rest =>
      rw [slice_append points h (hspan.le.trans hle), slice_append points hspan.le hle,
        countTokens_append_left (hblank blank), countTokens_append_right _ (hblank rest)]
      have hcount := hbudget span (mem_singleton_self span)
      exact_mod_cast (show (countTokens (slice points span) : ℤ) ≤ budget from hcount)

/-- A chunk fits the budget, or its headings alone fill it. -/
def Fits (chunk : WorkChunk) : Prop :=
  TokenCounter.wordish.countText (contextualized chunk) ≤ maxTokens ∨
    maxTokens ≤ headingTokens .wordish chunk

/-- The parts of a chunk fit, and the budget never has to shrink. -/
theorem splitChunk_fits (chunk : WorkChunk) :
  (∀ part ∈ (splitChunk .wordish maxTokens chunk).chunks, Fits maxTokens part) ∧
    (splitChunk .wordish maxTokens chunk).stillOver = 0
  := by
  unfold splitChunk
  split
  next hfits => simpa [Fits] using .inl hfits
  next hover =>
    split
    next hbudget =>
      obtain ⟨budget, hbudget', hle⟩ : ∃ budget : ℕ+,
          (maxTokens - headingTokens .wordish chunk).toNat.toPNat (by omega) = budget ∧
            (budget : ℤ) = maxTokens - headingTokens .wordish chunk :=
        ⟨_, rfl, by rw [Nat.toPNat, PNat.mk_coe, Int.toNat_of_nonneg hbudget.le]⟩
      have hpieces := @tokensIn_packSpans_le (decodeUtf8 chunk.text) budget
      have hcovers := covers_packSpans .wordish budget (decodeUtf8 chunk.text)
      have hshrink := shrink_wordish maxTokens chunk.headings chunk.text budget
        (by rw [headingTokens] at hle; omega)
      simp only [hbudget', hshrink]
      refine ⟨?_, rfl⟩
      split
      next hone =>
        -- One piece at most means that the whole text was within the budget.
        exfalso
        have hcount := countTokens_of_covers hcovers hone fun span hspan => hpieces hspan
        rw [slice_full] at hcount
        apply hover
        rw [contextualized, countText_headingsBlock]
        rw [headingTokens] at hle
        simp only [TokenCounter.wordish] at hle ⊢
        omega
      next =>
        intro part' hpart
        obtain ⟨piece, hpiece, rfl⟩ := mem_pmap.mp hpart
        left
        have hcount := countText_piece chunk.headings chunk.text piece
        have := hpieces hpiece
        rw [headingTokens] at hle
        exact hcount.trans_le (by omega)
    next hbudget => simpa [Fits] using .inr (by omega)

/-- With `wordish/1` every chunk fits the budget, but for those whose headings alone fill it,
and splitting always converges. -/
theorem hybrid_fits (mergePeersFirst : Bool) (work : List WorkChunk) :
  let result := splitOversized .wordish maxTokens
    (if mergePeersFirst then mergePeers .wordish maxTokens work else work)
  (∀ chunk ∈ result.chunks, Fits maxTokens chunk) ∧ result.stillOver = 0
  := by
  generalize (if mergePeersFirst then mergePeers .wordish maxTokens work else work) = merged
  dsimp only
  constructor
  · intro chunk hchunk
    rw [chunks_splitOversized] at hchunk
    obtain ⟨whole, -, hpart⟩ := List.mem_flatMap.mp hchunk
    exact (splitChunk_fits maxTokens whole).1 chunk hpart
  · induction merged using List.reverseRecOn with
    | nil => rfl
    | append_singleton merged chunk ih =>
      rw [splitOversized_append_singleton, SplitResult.add, ih,
        (splitChunk_fits maxTokens chunk).2]

end GRParse.Chunking
