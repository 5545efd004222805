import Mathlib.Data.List.DropRight

/-!
# Rejoining hyphenated words

Line breaks leave hyphens in texts.  `rejoin_hyphenated_words` goes through a text once: soft
hyphens go, and a hyphen that broke a word in two goes with the break behind it, unless the word
is a known compound, which keeps the hyphen.  Whether a hyphen broke a word is read off the text
behind it as it stands before the pass has been there.
-/

namespace GRParse.Hyphenation

open List

/-! ### Characters and words -/

def isAsciiLower (c : Char) : Bool :=
  'a' ≤ c && c ≤ 'z'

def isAsciiUpper (c : Char) : Bool :=
  'A' ≤ c && c ≤ 'Z'

def isAsciiAlpha (c : Char) : Bool :=
  isAsciiLower c || isAsciiUpper c

def isAsciiSpace (c : Char) : Bool :=
  c ∈ [' ', '\t', '\n', '\x0b', '\x0c', '\x0d']

def asciiLower (c : Char) : Char :=
  if isAsciiUpper c then .ofNat (c.toNat + 32) else c

/-- The run of letters that ends a text. -/
def trailingWord (text : List Char) : List Char :=
  text.rtakeWhile isAsciiAlpha

/-- The run of letters that starts a text. -/
def leadingWord (text : List Char) : List Char :=
  text.takeWhile isAsciiAlpha

def trimLeft (text : List Char) : List Char :=
  text.dropWhile isAsciiSpace

/-- The run of characters other than spaces that starts a text. -/
def firstToken (text : List Char) : List Char :=
  text.takeWhile fun c => !isAsciiSpace c

def kSoftHyphen : Char := '\u00ad'

/-- The prefixes that stay hyphenated, with whether they do so before vowels only. -/
def kHyphenatedPrefixes : List (List Char × Bool) :=
  [("self".toList, false), ("well".toList, false), ("non".toList, false), ("pre".toList, true),
    ("post".toList, true), ("co".toList, true), ("re".toList, true)]

def startsWithVowel (word : List Char) : Bool :=
  match word with
  | [] => false
  | c :: _ => asciiLower c ∈ ['a', 'e', 'i', 'o', 'u']

def isKnownCompound (head tail : List Char) : Bool :=
  kHyphenatedPrefixes.any fun (start, onlyBeforeVowel) =>
    head.map asciiLower = start && (!onlyBeforeVowel || startsWithVowel tail)

/-- `break_after`: the length of the line break that starts a text. -/
def breakAfter (spaceIsBreak : Bool) : List Char → ℕ
  | '\n' :: _ => 1
  | ' ' :: _ => if spaceIsBreak then 1 else 0
  | '\x0d' :: '\n' :: _ => 2
  | _ => 0

def kMinimumTailWord : ℕ := 2

def kTokenPunctuation : List Char :=
  ".,;:!?)]\x7d'\"".toList

/-- The first token is a word, up to punctuation behind it. -/
def tailTokenIsWord (afterBreak : List Char) : Bool :=
  let token := (firstToken afterBreak).rdropWhile (· ∈ kTokenPunctuation)
  kMinimumTailWord ≤ token.length && token.all isAsciiAlpha

/-- The conjunctions behind a suspended hyphen, with whether they are German. -/
def kSuspendingConjunctions : List (List Char × Bool) :=
  [("and".toList, false), ("or".toList, false), ("nor".toList, false), ("to".toList, false),
    ("et".toList, false), ("ou".toList, false), ("und".toList, true), ("oder".toList, true),
    ("bis".toList, true)]

/-- The first token is a conjunction, and the one behind it is hyphenated or, if the conjunction
is German, capitalized. -/
def suspendedHyphen (afterBreak : List Char) : Bool :=
  let token := firstToken afterBreak
  match kSuspendingConjunctions.find? fun (word, _) => word = token.map asciiLower with
  | none => false
  | some (_, german) =>
    match firstToken (trimLeft (afterBreak.drop token.length)) with
    | [] => false
    | first :: next => '-' ∈ next || (german && isAsciiUpper first)

/-! ### The pass -/

/-- A hyphen behind the given word broke it: a line break follows, and the rest of the word. -/
def joinable (spaceIsBreak : Bool) (head behind : List Char) : Bool :=
  let gap := breakAfter spaceIsBreak behind
  let afterBreak := behind.drop gap
  0 < gap && (head.getLast?).any isAsciiLower && ((leadingWord afterBreak).head?).any isAsciiLower &&
    tailTokenIsWord afterBreak && !suspendedHyphen afterBreak

/-- `join_hyphenated_fragments`. -/
def joinHyphenatedFragments (head tail : List Char) : List Char :=
  head ++ (if isKnownCompound head tail then ['-'] else []) ++ tail

/-- A run of code points that was taken out. -/
structure RemovedRun where
  start : ℕ
  stop : ℕ
  deriving DecidableEq

/-- What the pass has written, counted and taken out. -/
structure Rejoined where
  out : List Char := []
  rejoined : ℕ := 0
  softHyphensRemoved : ℕ := 0
  removed : List RemovedRun := []
  deriving DecidableEq

/-- How much is taken out behind a soft hyphen: the break, when a word continues past it. -/
def skippedBehindSoft (spaceIsBreak : Bool) (behind : List Char) : ℕ :=
  let gap := breakAfter spaceIsBreak behind
  if (leadingWord (behind.drop gap)).isEmpty then 0 else gap

/-- The loop of `rejoin_hyphenated_words`, at a position of the text. -/
def rejoinLoop (spaceIsBreak : Bool) (position : ℕ) : List Char → Rejoined → Rejoined
  | [], s => s
  | c :: behind, s =>
    if c = kSoftHyphen then
      let skipped := skippedBehindSoft spaceIsBreak behind
      rejoinLoop spaceIsBreak (position + 1 + skipped) (behind.drop skipped)
        { s with
          softHyphensRemoved := s.softHyphensRemoved + 1
          removed := s.removed ++ [⟨position, position + 1 + skipped⟩] }
    else if c = '-' then
      let head := trailingWord s.out
      if joinable spaceIsBreak head behind then
        let gap := breakAfter spaceIsBreak behind
        let tail := leadingWord (behind.drop gap)
        let joined := joinHyphenatedFragments head tail
        let first := if joined.length > head.length + tail.length then position + 1 else position
        rejoinLoop spaceIsBreak (position + 1 + gap + tail.length)
          (behind.drop (gap + tail.length))
          { s with
            out := s.out.take (s.out.length - head.length) ++ joined
            rejoined := s.rejoined + 1
            removed := s.removed ++ [⟨first, position + 1 + gap⟩] }
      else rejoinLoop spaceIsBreak (position + 1) behind { s with out := s.out ++ ['-'] }
    else rejoinLoop spaceIsBreak (position + 1) behind { s with out := s.out ++ [c] }
termination_by text => text.length
decreasing_by all_goals simp [List.length_drop] <;> omega

/-- `rejoin_hyphenated_words`. -/
def rejoinHyphenatedWords (spaceIsBreak : Bool) (text : List Char) : List Char :=
  (rejoinLoop spaceIsBreak 0 text {}).out

/-! ### The text read through

What the pass writes depends on what it has written only through the word that is open.  So the
text can be read through from the front: with the open word, what of the rest stays.
-/

/-- What the pass leaves of a text behind an open word. -/
def readThrough (spaceIsBreak : Bool) (word : List Char) : List Char → List Char
  | [] => []
  | c :: behind =>
    if c = kSoftHyphen then
      readThrough spaceIsBreak word (behind.drop (skippedBehindSoft spaceIsBreak behind))
    else if c = '-' then
      if joinable spaceIsBreak word behind then
        let afterBreak := behind.drop (breakAfter spaceIsBreak behind)
        if isKnownCompound word (leadingWord afterBreak) then
          '-' :: readThrough spaceIsBreak [] afterBreak
        else readThrough spaceIsBreak word afterBreak
      else '-' :: readThrough spaceIsBreak [] behind
    else c :: readThrough spaceIsBreak (if isAsciiAlpha c then word ++ [c] else []) behind
termination_by text => text.length
decreasing_by all_goals simp <;> omega

/-- Every hyphen that breaks no word as the text stands breaks none either once the hyphens behind
it that do, and the soft ones, have gone with their line breaks. -/
def settled (spaceIsBreak : Bool) (word : List Char) : List Char → Bool
  | [] => true
  | c :: behind =>
    if c = kSoftHyphen then
      settled spaceIsBreak word (behind.drop (skippedBehindSoft spaceIsBreak behind))
    else if c = '-' then
      if joinable spaceIsBreak word behind then
        let afterBreak := behind.drop (breakAfter spaceIsBreak behind)
        if isKnownCompound word (leadingWord afterBreak) then settled spaceIsBreak [] afterBreak
        else settled spaceIsBreak word afterBreak
      else
        !joinable spaceIsBreak word (readThrough spaceIsBreak [] behind) &&
          settled spaceIsBreak [] behind
    else settled spaceIsBreak (if isAsciiAlpha c then word ++ [c] else []) behind
termination_by text => text.length
decreasing_by all_goals simp <;> omega

section

variable {spaceIsBreak : Bool} {word behind : List Char}

theorem readThrough_soft :
  readThrough spaceIsBreak word (kSoftHyphen :: behind) =
    readThrough spaceIsBreak word (behind.drop (skippedBehindSoft spaceIsBreak behind))
  := by
  rw [readThrough, if_pos rfl]

/-- A hyphen that breaks no word stays. -/
theorem readThrough_kept (h : joinable spaceIsBreak word behind = false) :
  readThrough spaceIsBreak word ('-' :: behind) = '-' :: readThrough spaceIsBreak [] behind
  := by
  rw [readThrough, if_neg (by decide), if_pos rfl, if_neg (by simp [h])]

/-- A hyphen that breaks a word goes, unless the word is a compound. -/
theorem readThrough_joined (h : joinable spaceIsBreak word behind) :
  readThrough spaceIsBreak word ('-' :: behind) =
    if isKnownCompound word (leadingWord (behind.drop (breakAfter spaceIsBreak behind))) then
      '-' :: readThrough spaceIsBreak [] (behind.drop (breakAfter spaceIsBreak behind))
    else readThrough spaceIsBreak word (behind.drop (breakAfter spaceIsBreak behind))
  := by
  rw [readThrough, if_neg (by decide), if_pos rfl, if_pos h]

theorem readThrough_other {c : Char} (hsoft : c ≠ kSoftHyphen) (hhard : c ≠ '-') :
  readThrough spaceIsBreak word (c :: behind) =
    c :: readThrough spaceIsBreak (if isAsciiAlpha c then word ++ [c] else []) behind
  := by
  rw [readThrough, if_neg hsoft, if_neg hhard]

end

theorem ne_of_isAsciiAlpha {c : Char} (h : isAsciiAlpha c) :
  c ≠ kSoftHyphen ∧ c ≠ '-'
  := by
  constructor <;> rintro rfl <;> exact absurd h (by decide)

variable {spaceIsBreak : Bool}

/-- Letters are read into the open word. -/
theorem readThrough_letters {letters : List Char} (h : ∀ c ∈ letters, isAsciiAlpha c)
    (word behind : List Char) :
  readThrough spaceIsBreak word (letters ++ behind) =
    letters ++ readThrough spaceIsBreak (word ++ letters) behind
  := by
  induction letters generalizing word with
  | nil => simp
  | cons c letters ih =>
    obtain ⟨hsoft, hhard⟩ := ne_of_isAsciiAlpha (h c (by simp))
    rw [cons_append, readThrough_other hsoft hhard, if_pos (h c (by simp)),
      ih (fun c hc => h c (by simp [hc]))]
    simp

theorem leadingWord_isAsciiAlpha {text : List Char} {c : Char} (h : c ∈ leadingWord text) :
  isAsciiAlpha c
  := mem_takeWhile_imp h

@[simp]
theorem leadingWord_append_drop (text : List Char) :
  leadingWord text ++ text.drop (leadingWord text).length = text
  := prefix_iff_eq_append.mp ( takeWhile_prefix _)

theorem trailingWord_concat (out : List Char) (c : Char) :
  trailingWord (out ++ [c]) = if isAsciiAlpha c then trailingWord out ++ [c] else []
  := by
  unfold trailingWord
  split
  case isTrue h => rw [rtakeWhile_concat_pos _ _ _ h]
  case isFalse h => rw [rtakeWhile_concat_neg _ _ _ h]

theorem trailingWord_letters {letters : List Char} (h : ∀ c ∈ letters, isAsciiAlpha c)
    (out : List Char) :
  trailingWord (out ++ letters) = trailingWord out ++ letters
  := by
  induction letters using reverseRecOn with
  | nil => simp
  | append_singleton letters c ih =>
    rw [← append_assoc, trailingWord_concat, if_pos (h c (by simp)),
      ih fun c hc => h c (by simp [hc]), append_assoc]

/-- The open word is what the output ends in. -/
theorem take_append_trailingWord (out : List Char) :
  out.take (out.length - (trailingWord out).length) ++ trailingWord out = out
  := by
  obtain ⟨front, h⟩ : ∃ front, front ++ trailingWord out = out :=
    rtakeWhile_suffix isAsciiAlpha out
  have hlength : out.length - (trailingWord out).length = front.length := by
    rw [← congrArg length h, length_append, Nat.add_sub_cancel]
  have htake : out.take front.length = front := by
    rw [← h, take_left]
  rw [hlength, htake, h]

theorem trailingWord_hyphen (out : List Char) :
  trailingWord (out ++ ['-']) = []
  := by
  rw [trailingWord_concat, if_neg (by decide)]

/-- The pass appends what reading the rest through gives. -/
theorem out_rejoinLoop (spaceIsBreak : Bool) (position : ℕ) (text : List Char) (s : Rejoined) :
  (rejoinLoop spaceIsBreak position text s).out =
    s.out ++ readThrough spaceIsBreak (trailingWord s.out) text
  := by
  fun_induction rejoinLoop spaceIsBreak position text s with
  | case1 => simp [readThrough]
  | case2 position behind s skipped ih => rw [ih, readThrough_soft]
  | case3 position behind s head hjoin gap tail joined first _ ih =>
    have htail : ∀ c ∈ tail, isAsciiAlpha c := fun c => leadingWord_isAsciiAlpha
    have hrest : behind.drop gap = tail ++ behind.drop (gap + tail.length) := by
      rw [← drop_drop]
      exact (leadingWord_append_drop (behind.drop gap)).symm
    have hout : s.out.take (s.out.length - head.length) ++ joined =
        s.out ++ (if isKnownCompound head tail then ['-'] else []) ++ tail := by
      conv_rhs => rw [← take_append_trailingWord s.out]
      simp [joined, joinHyphenatedFragments, head]
    rw [ih, hout, trailingWord_letters htail, readThrough_joined hjoin]
    change _ = s.out ++ if isKnownCompound head tail then
      '-' :: readThrough spaceIsBreak [] (behind.drop gap)
      else readThrough spaceIsBreak head (behind.drop gap)
    rw [hrest, readThrough_letters htail, readThrough_letters htail]
    split
    case isTrue => simp [trailingWord_hyphen]
    case isFalse => simp [head]
  | case4 position behind s head hjoin _ ih =>
    rw [ih, trailingWord_hyphen, readThrough_kept (by simpa using hjoin)]
    simp
  | case5 position c behind s hsoft hhard ih =>
    rw [ih, trailingWord_concat, readThrough_other hsoft hhard]
    simp

/-- The pass reads the text through, with no word open. -/
theorem rejoinHyphenatedWords_eq (spaceIsBreak : Bool) (text : List Char) :
  rejoinHyphenatedWords spaceIsBreak text = readThrough spaceIsBreak [] text
  := by
  rw [rejoinHyphenatedWords, out_rejoinLoop]
  rfl

/-! ### When a second pass changes nothing -/

theorem length_readThrough_le (spaceIsBreak : Bool) (word text : List Char) :
  (readThrough spaceIsBreak word text).length ≤ text.length
  := by
  fun_induction readThrough spaceIsBreak word text with
  | case1 => simp
  | case2 word behind ih => simp at ih ⊢; omega
  | case3 word behind _ afterBreak _ _ ih => simp [afterBreak] at ih ⊢; omega
  | case4 word behind _ afterBreak _ _ ih => simp [afterBreak] at ih ⊢; omega
  | case5 word behind _ _ ih => simpa using ih
  | case6 word c behind _ _ ih => simpa using ih

variable {word behind : List Char}

/-- A hyphen that breaks a word stands before a line break. -/
theorem breakAfter_pos (h : joinable spaceIsBreak word behind) :
  0 < breakAfter spaceIsBreak behind
  := by
  simp [joinable] at h
  exact h.1.1.1.1

/-- Behind the break the word goes on. -/
theorem exists_afterBreak (h : joinable spaceIsBreak word behind) :
  ∃ c text, isAsciiLower c ∧ behind.drop (breakAfter spaceIsBreak behind) = c :: text
  := by
  simp only [joinable, Bool.and_eq_true] at h
  obtain ⟨⟨⟨-, hlower⟩, -⟩, -⟩ := h
  cases hbehind : behind.drop (breakAfter spaceIsBreak behind) with
  | nil => simp [hbehind, leadingWord] at hlower
  | cons c text =>
    refine ⟨c, text, ?_, rfl⟩
    by_cases hc : isAsciiAlpha c
    · simpa [hbehind, leadingWord, hc] using hlower
    · simp [hbehind, leadingWord, hc] at hlower

/-- A letter is no line break. -/
theorem joinable_lower {c : Char} (h : isAsciiLower c) (word text : List Char) :
  joinable spaceIsBreak word (c :: text) = false
  := by
  have hbreak : breakAfter spaceIsBreak (c :: text) = 0 := by
    unfold breakAfter
    split
    case h_4 => rfl
    all_goals
      rename_i heq
      cases heq
      exact absurd h (by decide)
  simp [joinable, hbreak]

/-- Where a hyphen breaks a word, something is taken out. -/
theorem length_readThrough_lt (h : joinable spaceIsBreak word behind) :
  (readThrough spaceIsBreak word ('-' :: behind)).length < ('-' :: behind).length
  := by
  have hpos := breakAfter_pos h
  obtain ⟨c, text, -, hdrop⟩ := exists_afterBreak h
  have hlength := congrArg length hdrop
  rw [readThrough_joined h]
  split
  case isTrue =>
    have hle := length_readThrough_le spaceIsBreak []
      (behind.drop (breakAfter spaceIsBreak behind))
    simp at hle hlength ⊢
    omega
  case isFalse =>
    have hle := length_readThrough_le spaceIsBreak word
      (behind.drop (breakAfter spaceIsBreak behind))
    simp at hle hlength ⊢
    omega

/-- A hyphen that stays is read through a second time unchanged exactly when it breaks no word of
the text that was left, and the text behind it is. -/
theorem readThrough_hyphen_eq_iff (spaceIsBreak : Bool) (word text : List Char) :
  readThrough spaceIsBreak word ('-' :: text) = '-' :: text ↔
    joinable spaceIsBreak word text = false ∧ readThrough spaceIsBreak [] text = text
  := by
  by_cases h : joinable spaceIsBreak word text
  · have hlt := length_readThrough_lt h
    simp only [h, Bool.true_eq_false, false_and, iff_false]
    intro heq
    rw [heq] at hlt
    exact Nat.lt_irrefl _ hlt
  · rw [Bool.not_eq_true] at h
    rw [readThrough_kept h]
    simp [h]

theorem readThrough_readThrough_iff (spaceIsBreak : Bool) (word text : List Char) :
  readThrough spaceIsBreak word (readThrough spaceIsBreak word text) =
      readThrough spaceIsBreak word text ↔
    settled spaceIsBreak word text
  := by
  fun_induction settled spaceIsBreak word text with
  | case1 => simp [readThrough]
  | case2 word behind ih => rwa [readThrough_soft]
  | case3 word behind hjoin afterBreak hcompound _ ih =>
    obtain ⟨c, text, hlower, hdrop⟩ := exists_afterBreak hjoin
    obtain ⟨hsoft, hhard⟩ := ne_of_isAsciiAlpha (c := c) (by simp [isAsciiAlpha, hlower])
    have hkept : joinable spaceIsBreak word (readThrough spaceIsBreak [] afterBreak) = false := by
      rw [show afterBreak = c :: text from hdrop, readThrough_other hsoft hhard]
      exact joinable_lower hlower word _
    rw [readThrough_joined hjoin, if_pos hcompound, readThrough_hyphen_eq_iff]
    exact (and_iff_right hkept).trans ih
  | case4 word behind hjoin afterBreak hcompound _ ih =>
    rwa [readThrough_joined hjoin, if_neg hcompound]
  | case5 word behind hjoin _ ih =>
    rw [readThrough_kept (by simpa using hjoin), readThrough_hyphen_eq_iff, ih]
    simp
  | case6 word c behind hsoft hhard ih =>
    rw [readThrough_other hsoft hhard, readThrough_other hsoft hhard, cons_inj_right]
    simpa using ih

end GRParse.Hyphenation
