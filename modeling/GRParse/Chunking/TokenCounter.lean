import GRParse.Chunking.Codec
import Mathlib.Algebra.Order.Ring.Int

/-!
# Token counters

The built-in counter `wordish/1` counts words, single characters of scripts without spaces,
and everything else that is not whitespace.  Whitespace separates and counts nothing, so the
count adds up wherever a text is cut at whitespace, and it is never more than the number of
code points.  A `TokenCounter` is this counter or any other.
-/

namespace GRParse.Chunking

def isWordishWhitespace (codePoint : ℕ) : Bool :=
  codePoint ≤ 0x20 || codePoint = 0x7F || codePoint ∈ [0x0085, 0x00A0, 0x1680, 0x2028, 0x2029,
    0x202F, 0x205F, 0x3000] || (0x2000 ≤ codePoint && codePoint ≤ 0x200A)

/-- The letters of the Latin-1 supplement, of the extended Latin blocks, of the Greek block and
of the Cyrillic blocks. -/
def isExtendedLetter (codePoint : ℕ) : Bool :=
  codePoint ∈ [0x00AA, 0x00B5, 0x00BA] ||
    (0x00C0 ≤ codePoint && codePoint ≤ 0x00FF && codePoint ∉ [0x00D7, 0x00F7]) ||
    (0x0100 ≤ codePoint && codePoint ≤ 0x024F) ||
    codePoint = 0x0386 ||
    (0x0388 ≤ codePoint && codePoint ≤ 0x03FF && codePoint ∉ [0x038B, 0x038D, 0x03A2]) ||
    (0x0400 ≤ codePoint && codePoint ≤ 0x052F)

/-- The kana and the ideographs, which count one apiece. -/
def isStandaloneToken (codePoint : ℕ) : Bool :=
  (0x3041 ≤ codePoint && codePoint ≤ 0x30FF) ||
    (0x3400 ≤ codePoint && codePoint ≤ 0x4DBF) ||
    (0x4E00 ≤ codePoint && codePoint ≤ 0x9FFF) ||
    (0xF900 ≤ codePoint && codePoint ≤ 0xFAFF)

def isAlphanumeric (codePoint : ℕ) : Bool :=
  if codePoint < 0x80 then
    (0x30 ≤ codePoint && codePoint ≤ 0x39) || (0x41 ≤ codePoint && codePoint ≤ 0x5A) ||
      (0x61 ≤ codePoint && codePoint ≤ 0x7A)
  else isExtendedLetter codePoint

/-- The loop of `count_tokens`, inside or outside a word. -/
def countFrom : Bool → List ℕ → ℕ
  | _, [] => 0
  | insideWord, value :: points =>
    if isWordishWhitespace value then countFrom false points
    else if isStandaloneToken value then countFrom false points + 1
    else if isAlphanumeric value then
      if insideWord then countFrom true points else countFrom true points + 1
    else countFrom false points + 1

/-- `count_tokens`. -/
def countTokens (points : List ℕ) : ℕ :=
  countFrom false points

/-! ### The count -/

theorem countFrom_le_length (insideWord : Bool) (points : List ℕ) :
  countFrom insideWord points ≤ points.length
  := by
  induction points generalizing insideWord with
  | nil => exact le_rfl
  | cons value points ih =>
    have hfalse := ih false
    have htrue := ih true
    rw [countFrom, List.length_cons]
    split_ifs <;> omega

/-- There is at most one token for each code point. -/
theorem countTokens_le_length (points : List ℕ) :
  countTokens points ≤ points.length
  := countFrom_le_length false points

/-- The count starts anew behind whitespace. -/
theorem countFrom_append_cons {value : ℕ} (hvalue : isWordishWhitespace value = true)
    (insideWord : Bool) (before after : List ℕ) :
  countFrom insideWord (before ++ value :: after) =
    countFrom insideWord before + countTokens after
  := by
  induction before generalizing insideWord with
  | nil => simp [countFrom, hvalue, countTokens]
  | cons point before ih =>
    rw [List.cons_append, countFrom, countFrom, ih, ih]
    split_ifs <;> omega

theorem countTokens_append_cons {value : ℕ} (hvalue : isWordishWhitespace value = true)
    (before after : List ℕ) :
  countTokens (before ++ value :: after) = countTokens before + countTokens after
  := countFrom_append_cons hvalue false before after

/-- Whitespace in front counts nothing. -/
theorem countTokens_append_left {before : List ℕ}
    (hbefore : ∀ value ∈ before, isWordishWhitespace value = true) (after : List ℕ) :
  countTokens (before ++ after) = countTokens after
  := by
  induction before with
  | nil => rfl
  | cons value before ih =>
    obtain ⟨hvalue, hbefore⟩ := List.forall_mem_cons.mp hbefore
    rw [← ih hbefore]
    simp [countTokens, countFrom, hvalue]

/-- Whitespace behind counts nothing. -/
theorem countTokens_append_right (before : List ℕ) {after : List ℕ}
    (hafter : ∀ value ∈ after, isWordishWhitespace value = true) :
  countTokens (before ++ after) = countTokens before
  := by
  cases after with
  | nil => rw [List.append_nil]
  | cons value after =>
    obtain ⟨hvalue, hafter⟩ := List.forall_mem_cons.mp hafter
    have hrest := countTokens_append_left hafter []
    rw [countTokens_append_cons hvalue, ← List.append_nil after, hrest]
    rfl

/-! ### Counters -/

/-- A counter of tokens, for texts and for ranges of code points. -/
structure TokenCounter where
  countText : List UInt8 → ℤ
  countPoints : List ℕ → ℤ
  /-- Whether a code point is at most one token, as the hard cut by code points relies on. -/
  codepointBounded : Bool

/-- The counter `wordish/1`. -/
def TokenCounter.wordish : TokenCounter where
  countText text := countTokens (decodeUtf8 text)
  countPoints points := countTokens points
  codepointBounded := true

end GRParse.Chunking
