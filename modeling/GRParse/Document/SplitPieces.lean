import GRParse.Document.ParagraphSplit

/-!
# The pieces of a text

The cuts are bytes, while spans and shares count characters.  In a text of characters that is cut
between them, each piece is the text of some characters without the spaces around it, and has the
spans that start in its stretch, on the same characters as before.
-/

namespace GRParse.Splitting

open Containers Protobuf Layout Utf8 Stretches List
open Joining (IntSpan InlineSpan)
open Hyphenation (isAsciiSpace)
open Hyphenation.Bytes (trimLeft trimRight reads_isAsciiSpace)

/-! ### Cuts -/

/-- What the loop over the offsets keeps of the cuts. -/
structure CutsAt (size : ℕ) (offsets cuts : List ℕ) : Prop where
  sorted : cuts.Pairwise (· < ·)
  inside : ∀ cut ∈ cuts, 0 < cut ∧ cut < size
  given : ∀ cut ∈ cuts, cut ∈ offsets

theorem CutsAt.push {size offset : ℕ} {offsets cuts : List ℕ} (h : CutsAt size offsets cuts)
    (hinside : 0 < offset ∧ offset < size) (hgiven : offset ∈ offsets)
    (hlast : cuts.getLast?.all (· < offset)) :
  CutsAt size offsets (cuts ++ [offset])
  where
  sorted := by
    rw [List.pairwise_append]
    refine ⟨h.sorted, List.pairwise_singleton _ _, ?_⟩
    intro cut hcut other hother
    rw [List.mem_singleton.mp hother]
    rcases List.eq_nil_or_concat cuts with rfl | ⟨front, last, rfl⟩
    · cases hcut
    · rw [List.concat_eq_append] at hcut hlast
      have hlt : last < offset := by simpa using hlast
      rcases List.mem_append.mp hcut with hfront | hend
      · have hsorted := h.sorted
        rw [List.concat_eq_append, List.pairwise_append] at hsorted
        exact (hsorted.2.2 cut hfront last List.mem_cons_self).trans hlt
      · rwa [List.mem_singleton.mp hend]
  inside := List.forall_mem_append.mpr ⟨h.inside, List.forall_mem_singleton.mpr hinside⟩
  given := List.forall_mem_append.mpr ⟨h.given, List.forall_mem_singleton.mpr hgiven⟩

/-- The cuts are offsets inside the text, in order. -/
theorem cutsAt_cutsOf (size : ℕ) (offsets : List ℕ) :
  CutsAt size offsets (cutsOf size offsets)
  := by
  have hloop : ∀ left cuts : List ℕ, (∀ offset ∈ left, offset ∈ offsets) → CutsAt size offsets cuts →
      CutsAt size offsets (left.foldl (fun cuts offset =>
        if 0 < offset ∧ offset < size ∧ cuts.getLast?.all (· < offset) then cuts ++ [offset]
        else cuts) cuts) := by
    intro left
    induction left with
    | nil => exact fun _ _ h => h
    | cons offset left ih =>
      intro cuts hleft h
      obtain ⟨hoffset, hleft⟩ := forall_mem_cons.mp hleft
      rw [foldl_cons]
      apply ih _ hleft
      split
      case isTrue hcut => exact h.push ⟨hcut.1, hcut.2.1⟩ hoffset hcut.2.2
      case isFalse => exact h
  exact hloop offsets [] (fun _ h => h) ⟨.nil, by simp, by simp⟩

/-- A cut that is there stays. -/
theorem foldl_cuts_ne_nil {size : ℕ} (offsets : List ℕ) {cuts : List ℕ} (h : cuts ≠ []) :
  offsets.foldl (fun cuts offset =>
    if 0 < offset ∧ offset < size ∧ cuts.getLast?.all (· < offset) then cuts ++ [offset] else cuts)
    cuts ≠ []
  := by
  induction offsets generalizing cuts with
  | nil => exact h
  | cons offset offsets ih =>
    rw [foldl_cons]
    apply ih
    split
    case isTrue => simp
    case isFalse => exact h

/-- A text is cut just when some offset is inside it. -/
theorem cutsOf_eq_nil_iff {size : ℕ} {offsets : List ℕ} :
  cutsOf size offsets = [] ↔ ∀ offset ∈ offsets, ¬ (0 < offset ∧ offset < size)
  := by
  rw [cutsOf]
  induction offsets with
  | nil => simp
  | cons offset offsets ih =>
    rw [foldl_cons, forall_mem_cons, ← ih]
    by_cases h : 0 < offset ∧ offset < size
    · refine iff_of_false ?_ (fun hboth => hboth.1 h)
      apply foldl_cuts_ne_nil
      rw [if_pos ⟨h.1, h.2, rfl⟩]
      simp
    · rw [if_neg fun hcut => h ⟨hcut.1, hcut.2.1⟩, and_iff_right h]

/-! ### Positions between characters -/

/-- The bytes of the first characters of a text. -/
def bytesTo (chars : List Char) (points : ℕ) : ℕ :=
  (encode (chars.take points)).length

section

variable {chars : List Char}

theorem take_bytesTo (points : ℕ) :
  (encode chars).take (bytesTo chars points) = encode (chars.take points)
  := by
  have hparts : encode chars = encode (chars.take points) ++ encode (chars.drop points) := by
    rw [← encode_append, take_append_drop]
  rw [hparts, bytesTo, take_left]

/-- A byte between characters is found by the number of characters before it. -/
theorem codepoints_take (points : ℕ) :
  codepoints ((encode chars).take (bytesTo chars points)) = min points chars.length
  := by
  rw [take_bytesTo, codepoints, countP_encode, length_take]

theorem codepoints_encode : codepoints (encode chars) = chars.length :=
  countP_encode chars

variable {first second : ℕ}

theorem take_append_slice (h : first ≤ second) :
  chars.take second = chars.take first ++ slice chars (first, second)
  := by
  simpa [slice] using (slice_append_slice chars (Nat.zero_le first) h).symm

theorem bytesTo_mono (h : first ≤ second) :
  bytesTo chars first ≤ bytesTo chars second
  := by
  rw [bytesTo, bytesTo, take_append_slice h, encode_append, length_append]
  exact Nat.le_add_right _ _

theorem bytesTo_zero : bytesTo chars 0 = 0 := rfl

theorem bytesTo_length : bytesTo chars chars.length = (encode chars).length := by
  rw [bytesTo, List.take_length]

/-- The bytes between two characters. -/
theorem slice_encode {first second : ℕ} (h : first ≤ second) :
  slice (encode chars) (bytesTo chars first, bytesTo chars second) =
    encode (slice chars (first, second))
  := by
  have htake := @take_bytesTo chars second
  rw [take_append_slice h, encode_append] at htake
  rw [slice, ← drop_take, htake, bytesTo, drop_left]

/-! ### Trimmed pieces -/

/-- A list with what a test holds of at its ends set apart. -/
structure Trims (p : Char → Bool) (list lead middle trail : List Char) : Prop where
  parts : list = lead ++ middle ++ trail
  lead : ∀ c ∈ lead, p c
  trail : ∀ c ∈ trail, p c
  head : ∀ c ∈ middle.head?, ¬ p c
  last : ∀ c ∈ middle.getLast?, ¬ p c

theorem trims (p : Char → Bool) (list : List Char) :
  Trims p list (list.takeWhile p) ((list.dropWhile p).rdropWhile p)
    ((list.dropWhile p).rtakeWhile p)
  where
  parts := by
    rw [List.append_assoc, List.rdropWhile_append_rtakeWhile, List.takeWhile_append_dropWhile]
  lead _ hc := List.mem_takeWhile_imp hc
  trail _ hc := List.mem_rtakeWhile_imp hc
  head c hc := by
    obtain ⟨rest, hrest⟩ := List.rdropWhile_prefix p (list.dropWhile p)
    have hnot := List.head?_dropWhile_not p list
    rw [← hrest, List.head?_append, hc, Option.some_or] at hnot
    simpa using hnot
  last c hc := by
    obtain ⟨hne, rfl⟩ := List.mem_getLast?_eq_getLast hc
    exact List.rdropWhile_last_not p _ hne

/-- A list of which nothing stays. -/
theorem trims_nil {p : Char → Bool} {list : List Char} (h : (list.dropWhile p).rdropWhile p = []) :
  Trims p list [] [] list
  where
  parts := by simp
  lead := by simp
  trail c hc := by
    have hparts := (trims p list).parts
    rw [h, List.append_nil] at hparts
    rw [hparts] at hc
    rcases List.mem_append.mp hc with hc | hc
    · exact (trims p list).lead c hc
    · exact (trims p list).trail c hc
  head := by simp
  last := by simp

theorem trimmed_encode (text : List Char) :
  trimmed (encode text) = encode ((text.dropWhile isAsciiSpace).rdropWhile isAsciiSpace)
  := by
  rw [trimmed, trimLeft, reads_isAsciiSpace.dropWhile, trimRight, reads_isAsciiSpace.rdropWhile]

/-! ### Spans -/

/-- A span on some of its characters: those in a slice of the text, counted from its start. -/
structure Moved (sliceStart slicePoints : ℕ) (span moved : InlineSpan) : Prop where
  rest : moved.rest = span.rest
  covers : ∀ k : ℤ, k ∈ moved.range.positions ↔
    0 ≤ k ∧ k < slicePoints ∧ k + sliceStart ∈ span.range.positions

theorem moved_moveSpan (sliceStart slicePoints : ℕ) (span : InlineSpan) :
  Moved sliceStart slicePoints span (moveSpan sliceStart slicePoints span)
  where
  rest := rfl
  covers k := by
    simp only [moveSpan, IntSpan.positions, Set.mem_Ico]
    omega

/-- What a piece of a text is: the text of a stretch of characters without the spaces around it, and
the spans that start in the stretch. -/
structure PieceOf (chars : List Char) (base : TextItemBase) (stretch : ℕ × ℕ)
    (lead middle trail : List Char) (piece : TextItemBase) : Prop where
  trims : Trims isAsciiSpace (slice chars stretch) lead middle trail
  text : piece.text = encode middle
  spans : List.Forall₂ (Moved (stretch.1 + lead.length) middle.length)
    (base.spans.filter fun span => Within (spanStart span) stretch) piece.spans

/-- What begins a slice is a slice. -/
theorem take_lead {lead rest : List Char} (h : slice chars (first, second) = lead ++ rest) :
  chars.take (first + lead.length) = chars.take first ++ lead
  := by
  have hprefix : lead <+: chars.drop first := by
    refine List.IsPrefix.trans ⟨rest, h.symm⟩ ?_
    exact take_prefix _ _
  rw [take_add, ← prefix_iff_eq_take.mp hprefix]

theorem codepoints_lead {lead rest : List Char} (hfirst : first ≤ chars.length)
    (h : slice chars (first, second) = lead ++ rest) :
  codepoints ((encode chars).take (bytesTo chars first + (encode lead).length)) =
    first + lead.length
  := by
  have hbytes : bytesTo chars first + (encode lead).length = bytesTo chars (first + lead.length) := by
    rw [bytesTo, bytesTo, take_lead h, encode_append, length_append]
  rw [hbytes, take_bytesTo, take_lead h, codepoints, countP_encode, length_append,
    length_take, Nat.min_eq_left hfirst]

/-- What the loop makes of a stretch is a piece of the text. -/
theorem pieceOf_fillPiece {heights : PageHeights} {base target : TextItemBase}
    (htext : base.text = encode chars) (hspans : target.spans = []) (hle : first ≤ second)
    (hlength : second ≤ chars.length) :
  ∃ lead middle trail, PieceOf chars base (first, second) lead middle trail
    (fillPiece heights base (bytesTo chars first, bytesTo chars second) target)
  := by
  have hstretch := @slice_encode chars first second hle
  have hstart : codepoints ((encode chars).take (bytesTo chars first)) = first := by
    rw [codepoints_take, Nat.min_eq_left (hle.trans hlength)]
  have hend : codepoints ((encode chars).take (bytesTo chars second)) = second := by
    rw [codepoints_take, Nat.min_eq_left hlength]
  have htrimmed := trimmed_encode (slice chars (first, second))
  by_cases hnil : ((slice chars (first, second)).dropWhile isAsciiSpace).rdropWhile isAsciiSpace = []
  · refine ⟨[], [], slice chars (first, second), trims_nil hnil, ?_, ?_⟩
    · rw [fillPiece, htext, hstretch, htrimmed, hnil]
    · rw [fillPiece, htext, hstretch, htrimmed, hnil, hspans]
      dsimp only
      rw [encode_nil, if_pos rfl, hstart, hend, nil_append, length_nil, Nat.add_zero]
      exact forall₂_map_right_iff.mpr
        (forall₂_same.mpr fun span _ => moved_moveSpan first 0 span)
  · have h := trims isAsciiSpace (slice chars (first, second))
    refine ⟨_, _, _, h, ?_, ?_⟩
    · rw [fillPiece, htext, hstretch, htrimmed]
    · have hparts := h.parts
      rw [append_assoc] at hparts
      have hlead : (encode (slice chars (first, second))).length -
          (trimLeft (encode (slice chars (first, second)))).length =
          (encode ((slice chars (first, second)).takeWhile isAsciiSpace)).length := by
        rw [trimLeft, reads_isAsciiSpace.dropWhile]
        have hsplit := congrArg (fun l => (encode l).length)
          (takeWhile_append_dropWhile (p := isAsciiSpace) (l := slice chars (first, second)))
        simp only [encode_append, length_append] at hsplit
        omega
      rw [fillPiece, htext, hstretch, htrimmed, hspans]
      dsimp only
      rw [if_neg ((encode_eq_nil_iff _).not.mpr hnil), hlead, hstart, hend,
        codepoints_lead (hle.trans hlength) hparts, codepoints_encode, nil_append]
      exact forall₂_map_right_iff.mpr
        (forall₂_same.mpr fun span _ => moved_moveSpan _ _ span)

end

end GRParse.Splitting
