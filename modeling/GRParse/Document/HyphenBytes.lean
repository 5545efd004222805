import GRParse.Document.Hyphenation
import GRParse.Lib.Utf8

/-!
# Rejoining hyphenated words in UTF-8

The pass works on the bytes of a text, and a cursor that only moves forward counts the code points
of the runs it takes out.  On valid UTF-8 it does what the pass over characters does.
-/

namespace GRParse.Hyphenation.Bytes

open Utf8 List

/-! ### Bytes and words -/

def isAsciiLower (byte : UInt8) : Bool :=
  97 ≤ byte && byte ≤ 122

def isAsciiUpper (byte : UInt8) : Bool :=
  65 ≤ byte && byte ≤ 90

def isAsciiAlpha (byte : UInt8) : Bool :=
  isAsciiLower byte || isAsciiUpper byte

def isAsciiSpace (byte : UInt8) : Bool :=
  byte ∈ encode [' ', '\t', '\n', '\x0b', '\x0c', '\x0d']

def asciiLower (byte : UInt8) : UInt8 :=
  if isAsciiUpper byte then byte + 32 else byte

def trailingWord (text : List UInt8) : List UInt8 :=
  text.rtakeWhile isAsciiAlpha

def leadingWord (text : List UInt8) : List UInt8 :=
  text.takeWhile isAsciiAlpha

def trimLeft (text : List UInt8) : List UInt8 :=
  text.dropWhile isAsciiSpace

def trimRight (text : List UInt8) : List UInt8 :=
  text.rdropWhile isAsciiSpace

def firstToken (text : List UInt8) : List UInt8 :=
  text.takeWhile fun byte => !isAsciiSpace byte

def kSoftHyphen : List UInt8 := [0xC2, 0xAD]

def kHyphen : UInt8 := 45

def startsWithVowel (word : List UInt8) : Bool :=
  match word with
  | [] => false
  | byte :: _ => asciiLower byte ∈ encode ['a', 'e', 'i', 'o', 'u']

def isKnownCompound (head tail : List UInt8) : Bool :=
  kHyphenatedPrefixes.any fun (start, onlyBeforeVowel) =>
    head.map asciiLower = encode start && (!onlyBeforeVowel || startsWithVowel tail)

/-- `break_after`, at the bytes behind the position. -/
def breakAfter (spaceIsBreak : Bool) : List UInt8 → ℕ
  | 10 :: _ => 1
  | 32 :: _ => if spaceIsBreak then 1 else 0
  | 13 :: 10 :: _ => 2
  | _ => 0

def tailTokenIsWord (afterBreak : List UInt8) : Bool :=
  let token := (firstToken afterBreak).rdropWhile (· ∈ encode kTokenPunctuation)
  kMinimumTailWord ≤ token.length && token.all isAsciiAlpha

def suspendedHyphen (afterBreak : List UInt8) : Bool :=
  let token := firstToken afterBreak
  match kSuspendingConjunctions.find? fun (word, _) => encode word = token.map asciiLower with
  | none => false
  | some (_, german) =>
    match firstToken (trimLeft (afterBreak.drop token.length)) with
    | [] => false
    | first :: next => kHyphen ∈ next || (german && isAsciiUpper first)

/-! ### The pass -/

/-- `CodePointCursor`: how many of the bytes of a text it has passed, and how many code points. -/
structure CodePointCursor where
  text : List UInt8
  byte : ℕ := 0
  codePoints : ℕ := 0

/-- `CodePointCursor::at`: moves forward to a byte offset. -/
def CodePointCursor.moveTo (cursor : CodePointCursor) (byte : ℕ) : CodePointCursor :=
  if h : cursor.byte < byte ∧ cursor.byte < cursor.text.length then
    moveTo
      { cursor with
        byte := cursor.byte + 1
        codePoints := cursor.codePoints + if startsChar cursor.text[cursor.byte] then 1 else 0 }
      byte
  else cursor
termination_by byte - cursor.byte

/-- `join_hyphenated_fragments`. -/
def joinHyphenatedFragments (head tail : List UInt8) : List UInt8 :=
  head ++ (if isKnownCompound head tail then [kHyphen] else []) ++ tail

/-- What the pass has written, counted and taken out. -/
structure Rejoined where
  out : List UInt8 := []
  rejoined : ℕ := 0
  softHyphensRemoved : ℕ := 0
  removed : List RemovedRun := []
  codePoints : CodePointCursor

/-- `record`: notes the run between two byte offsets. -/
def Rejoined.record (s : Rejoined) (first last : ℕ) : Rejoined :=
  let start := s.codePoints.moveTo first
  let stop := start.moveTo last
  { s with
    removed := s.removed ++ [⟨start.codePoints, stop.codePoints⟩]
    codePoints := stop }

/-- The hyphen behind the given word broke it. -/
def joinable (spaceIsBreak : Bool) (head behind : List UInt8) : Bool :=
  let gap := breakAfter spaceIsBreak behind
  let afterBreak := behind.drop gap
  0 < gap && (head.getLast?).any isAsciiLower && ((leadingWord afterBreak).head?).any isAsciiLower &&
    tailTokenIsWord afterBreak && !suspendedHyphen afterBreak

/-- The loop of `rejoin_hyphenated_words`, at a byte offset `i`. -/
def rejoinLoop (spaceIsBreak : Bool) (i : ℕ) : List UInt8 → Rejoined → Rejoined
  | [], s => s
  | byte :: behind, s =>
    if kSoftHyphen.isPrefixOf (byte :: behind) then
      let after := i + kSoftHyphen.length
      let behind := behind.drop 1
      let gap := breakAfter spaceIsBreak behind
      let skipped := if (leadingWord (behind.drop gap)).isEmpty then 0 else gap
      let s := s.record i (after + skipped)
      rejoinLoop spaceIsBreak (after + skipped) (behind.drop skipped)
        { s with softHyphensRemoved := s.softHyphensRemoved + 1 }
    else if byte = kHyphen then
      let after := i + 1
      let head := trailingWord s.out
      if joinable spaceIsBreak head behind then
        let gap := breakAfter spaceIsBreak behind
        let tail := leadingWord (behind.drop gap)
        let joined := joinHyphenatedFragments head tail
        let s := s.record (if joined.length > head.length + tail.length then after else i)
          (after + gap)
        rejoinLoop spaceIsBreak (after + gap + tail.length) (behind.drop (gap + tail.length))
          { s with
            out := s.out.take (s.out.length - head.length) ++ joined
            rejoined := s.rejoined + 1 }
      else rejoinLoop spaceIsBreak (i + 1) behind { s with out := s.out ++ [kHyphen] }
    else rejoinLoop spaceIsBreak (i + 1) behind { s with out := s.out ++ [byte] }
termination_by text => text.length
decreasing_by all_goals simp only [List.length_drop, List.length_cons]; omega

/-- `rejoin_hyphenated_words`, with the counts and the runs. -/
def rejoinHyphenatedWords (spaceIsBreak : Bool) (text : List UInt8) : Rejoined :=
  rejoinLoop spaceIsBreak 0 text { codePoints := { text } }

/-! ### Bytes and characters -/

theorem reads_isAsciiLower :
  Reads isAsciiLower Hyphenation.isAsciiLower
  := by
  apply Reads.of_ascii false
  · decide
  · intro byte h
    have : ¬ byte ≤ 122 := fun hle => absurd (UInt8.le_trans h hle) (by decide)
    simp [isAsciiLower, this]
  · intro c h
    have : ¬ c ≤ 'z' := fun hle => absurd (le_trans h hle) (by decide)
    simp [Hyphenation.isAsciiLower, this]

theorem reads_isAsciiUpper :
  Reads isAsciiUpper Hyphenation.isAsciiUpper
  := by
  apply Reads.of_ascii false
  · decide
  · intro byte h
    have : ¬ byte ≤ 90 := fun hle => absurd (UInt8.le_trans h hle) (by decide)
    simp [isAsciiUpper, this]
  · intro c h
    have : ¬ c ≤ 'Z' := fun hle => absurd (le_trans h hle) (by decide)
    simp [Hyphenation.isAsciiUpper, this]

theorem reads_isAsciiAlpha :
  Reads isAsciiAlpha Hyphenation.isAsciiAlpha
  := reads_isAsciiLower.or reads_isAsciiUpper

theorem reads_isAsciiSpace :
  Reads isAsciiSpace Hyphenation.isAsciiSpace
  := Reads.mem (by decide)

theorem map_asciiLower (c : Char) :
  (String.utf8EncodeChar c).map asciiLower = String.utf8EncodeChar (Hyphenation.asciiLower c)
  := by
  revert c
  apply map_utf8EncodeChar_of_ascii
  · decide
  · intro byte h
    have : ¬ byte ≤ 90 := fun hle => absurd (UInt8.le_trans h hle) (by decide)
    simp [asciiLower, isAsciiUpper, this]
  · intro c h
    have : ¬ c ≤ 'Z' := fun hle => absurd (le_trans h hle) (by decide)
    simp [Hyphenation.asciiLower, Hyphenation.isAsciiUpper, this]

theorem toNat_of_isAsciiAlpha {c : Char} (h : Hyphenation.isAsciiAlpha c) :
  c.toNat < 128
  := by
  simp only [Hyphenation.isAsciiAlpha, Hyphenation.isAsciiLower, Hyphenation.isAsciiUpper,
    Bool.or_eq_true, Bool.and_eq_true, decide_eq_true_eq] at h
  obtain h | h := h
  · exact lt_of_le_of_lt (UInt32.le_iff_toNat_le.mp h.2) (by decide)
  · exact lt_of_le_of_lt (UInt32.le_iff_toNat_le.mp h.2) (by decide)

theorem utf8EncodeChar_hyphen :
  String.utf8EncodeChar '-' = [kHyphen]
  := by decide

theorem eq_hyphen_of_mem {c : Char} (h : kHyphen ∈ String.utf8EncodeChar c) :
  c = '-'
  := by
  have hread : kHyphen ∈ encode ['-'] ↔ c ∈ ['-'] :=
    decide_eq_decide.mp (Reads.mem (by decide) c kHyphen h)
  exact mem_singleton.mp (hread.mp (by decide))

theorem mem_encode_hyphen (text : List Char) :
  kHyphen ∈ encode text ↔ '-' ∈ text
  := by
  rw [encode, mem_flatMap]
  constructor
  · rintro ⟨c, hc, hmem⟩
    rwa [← eq_hyphen_of_mem hmem]
  · intro hmem
    exact ⟨'-', hmem, by decide⟩

section Encode

variable (text : List Char)

@[simp]
theorem trailingWord_encode :
  trailingWord (encode text) = encode (Hyphenation.trailingWord text)
  := reads_isAsciiAlpha.rtakeWhile text

@[simp]
theorem leadingWord_encode :
  leadingWord (encode text) = encode (Hyphenation.leadingWord text)
  := reads_isAsciiAlpha.takeWhile text

@[simp]
theorem trimLeft_encode :
  trimLeft (encode text) = encode (Hyphenation.trimLeft text)
  := reads_isAsciiSpace.dropWhile text

@[simp]
theorem firstToken_encode :
  firstToken (encode text) = encode (Hyphenation.firstToken text)
  := reads_isAsciiSpace.not.takeWhile text

theorem startsWithVowel_encode :
  startsWithVowel (encode text) = Hyphenation.startsWithVowel text
  := by
  have hvowel : Reads (fun byte => asciiLower byte ∈ encode ['a', 'e', 'i', 'o', 'u'])
      fun c => Hyphenation.asciiLower c ∈ ['a', 'e', 'i', 'o', 'u'] :=
    Reads.comp (Reads.mem (by decide)) map_asciiLower
  have h := hvowel.head? text
  cases text with
  | nil => rfl
  | cons c text =>
    obtain ⟨byte, rest, hbytes⟩ := exists_cons_of_ne_nil (utf8EncodeChar_ne_nil c)
    rw [encode_cons c text, hbytes] at h ⊢
    exact h

@[simp]
theorem isKnownCompound_encode (head tail : List Char) :
  isKnownCompound (encode head) (encode tail) = Hyphenation.isKnownCompound head tail
  := by
  rw [isKnownCompound, Hyphenation.isKnownCompound, map_encode map_asciiLower,
    startsWithVowel_encode]
  simp only [encode_injective.eq_iff]

@[simp]
theorem joinHyphenatedFragments_encode (head tail : List Char) :
  joinHyphenatedFragments (encode head) (encode tail) =
    encode (Hyphenation.joinHyphenatedFragments head tail)
  := by
  rw [joinHyphenatedFragments, Hyphenation.joinHyphenatedFragments, isKnownCompound_encode]
  split <;> simp [utf8EncodeChar_hyphen]

theorem breakAfter_other (spaceIsBreak : Bool) {byte : UInt8} (bytes : List UInt8)
    (h : byte ∉ encode ['\n', ' ', '\x0d']) :
  breakAfter spaceIsBreak (byte :: bytes) = 0
  := by
  unfold breakAfter
  split
  case h_4 => rfl
  all_goals
    rename_i heq
    cases heq
    exact absurd (by decide) h

theorem breakAfter_return (spaceIsBreak : Bool) {byte : UInt8} (bytes : List UInt8)
    (h : byte ≠ 10) :
  breakAfter spaceIsBreak (13 :: byte :: bytes) = 0
  := by
  unfold breakAfter
  split
  case h_4 => rfl
  all_goals
    rename_i heq
    cases heq
  exact absurd rfl h

@[simp]
theorem breakAfter_encode (spaceIsBreak : Bool) :
  breakAfter spaceIsBreak (encode text) = Hyphenation.breakAfter spaceIsBreak text
  := by
  unfold Hyphenation.breakAfter
  split
  case h_1 => rfl
  case h_2 => rfl
  case h_3 => rfl
  case h_4 hline hspace hreturn =>
    obtain _ | ⟨c, text⟩ := text
    · rfl
    obtain ⟨byte, rest, hbytes⟩ := exists_cons_of_ne_nil (utf8EncodeChar_ne_nil c)
    by_cases hc : c = '\x0d'
    · subst hc
      obtain _ | ⟨d, text⟩ := text
      · rfl
      obtain ⟨next, after, hnext⟩ := exists_cons_of_ne_nil (utf8EncodeChar_ne_nil d)
      have hread : next ∈ encode ['\n'] ↔ d ∈ ['\n'] :=
        decide_eq_decide.mp (Reads.mem (by decide) d next (by simp [hnext]))
      rw [encode_cons, encode_cons, hnext]
      apply breakAfter_return
      rintro rfl
      have hd := mem_singleton.mp (hread.mp (by decide))
      exact hreturn text (by rw [hd])
    · have hread : byte ∈ encode ['\n', ' ', '\x0d'] ↔ c ∈ ['\n', ' ', '\x0d'] :=
        decide_eq_decide.mp (Reads.mem (by decide) c byte (by simp [hbytes]))
      rw [encode_cons, hbytes, cons_append]
      apply breakAfter_other
      rw [hread]
      simp only [mem_cons, not_mem_nil, or_false, not_or]
      exact ⟨fun h => hline text (by rw [h]), fun h => hspace text (by rw [h]), hc⟩

theorem tailTokenIsWord_encode :
  tailTokenIsWord (encode text) = Hyphenation.tailTokenIsWord text
  := by
  have htoken : (encode (Hyphenation.firstToken text)).rdropWhile (· ∈ encode kTokenPunctuation) =
      encode ((Hyphenation.firstToken text).rdropWhile (· ∈ kTokenPunctuation)) :=
    (Reads.mem (by decide)).rdropWhile _
  simp only [tailTokenIsWord, Hyphenation.tailTokenIsWord, firstToken_encode, htoken,
    reads_isAsciiAlpha.all]
  generalize (Hyphenation.firstToken text).rdropWhile (· ∈ kTokenPunctuation) = token
  by_cases hall : token.all Hyphenation.isAsciiAlpha
  · rw [length_encode_ascii]
    exact fun c hc => toNat_of_isAsciiAlpha (all_eq_true.mp hall c hc)
  · simp [hall]

theorem suspendedHyphen_encode :
  suspendedHyphen (encode text) = Hyphenation.suspendedHyphen text
  := by
  have hrest : (encode text).drop (encode (Hyphenation.firstToken text)).length =
      encode (text.drop (Hyphenation.firstToken text).length) := by
    have htext : Hyphenation.firstToken text ++ text.drop (Hyphenation.firstToken text).length =
        text := prefix_iff_eq_append.mp ( takeWhile_prefix _)
    calc (encode text).drop (encode (Hyphenation.firstToken text)).length
      _ = (encode (Hyphenation.firstToken text ++
            text.drop (Hyphenation.firstToken text).length)).drop
            (encode (Hyphenation.firstToken text)).length := by rw [htext]
      _ = encode (text.drop (Hyphenation.firstToken text).length) := by
        rw [encode_append, drop_left]
  simp only [suspendedHyphen, Hyphenation.suspendedHyphen, firstToken_encode,
    map_encode map_asciiLower, encode_injective.eq_iff, hrest, trimLeft_encode]
  generalize find? _ kSuspendingConjunctions = found
  obtain _ | ⟨word, german⟩ := found
  · rfl
  generalize Hyphenation.firstToken (Hyphenation.trimLeft _) = next
  cases next with
  | nil => rfl
  | cons c next =>
    obtain ⟨byte, rest, hbytes⟩ := exists_cons_of_ne_nil (utf8EncodeChar_ne_nil c)
    have hupper : isAsciiUpper byte = Hyphenation.isAsciiUpper c :=
      reads_isAsciiUpper c byte (by simp [hbytes])
    have hrest : kHyphen ∉ rest := by
      intro hmem
      have hc : c = '-' := eq_hyphen_of_mem (by simp [hbytes, hmem])
      rw [hc, utf8EncodeChar_hyphen] at hbytes
      cases hbytes
      cases hmem
    simp [encode_cons, hbytes, hupper, hrest, mem_encode_hyphen]

/-- Line breaks are between characters. -/
theorem drop_breakAfter_encode (spaceIsBreak : Bool) :
  (encode text).drop (Hyphenation.breakAfter spaceIsBreak text) =
    encode (text.drop (Hyphenation.breakAfter spaceIsBreak text))
  := by
  unfold Hyphenation.breakAfter
  split
  case h_1 => rfl
  case h_2 => split <;> rfl
  case h_3 => rfl
  case h_4 => rfl

@[simp]
theorem joinable_encode (spaceIsBreak : Bool) (head : List Char) :
  joinable spaceIsBreak (encode head) (encode text) =
    Hyphenation.joinable spaceIsBreak head text
  := by
  simp only [joinable, Hyphenation.joinable, breakAfter_encode, drop_breakAfter_encode,
    leadingWord_encode, tailTokenIsWord_encode, suspendedHyphen_encode,
    reads_isAsciiLower.head?, reads_isAsciiLower.getLast?]

end Encode

/-! ### The cursor -/

/-- A cursor that has counted the code points before it. -/
structure CodePointCursor.Counts (cursor : CodePointCursor) : Prop where
  inside : cursor.byte ≤ cursor.text.length
  counted : cursor.codePoints = (cursor.text.take cursor.byte).countP startsChar

/-- A cursor that moves forward to a byte of the text counts up to it. -/
theorem CodePointCursor.moveTo_eq {cursor : CodePointCursor} (h : cursor.Counts) {byte : ℕ}
    (forward : cursor.byte ≤ byte) (inside : byte ≤ cursor.text.length) :
  cursor.moveTo byte =
    ⟨cursor.text, byte, (cursor.text.take byte).countP startsChar⟩
  := by
  fun_induction CodePointCursor.moveTo cursor byte with
  | case1 cursor hbyte ih =>
    refine ih ⟨hbyte.2, ?_⟩ hbyte.1 inside
    simp only [h.counted]
    rw [take_add_one, countP_append, getElem?_eq_getElem hbyte.2]
    simp [countP_singleton]
  | case2 cursor hbyte =>
    have heq : cursor.byte = byte := by omega
    subst heq
    rw [← h.counted]

theorem CodePointCursor.counts_take (text : List UInt8) {byte : ℕ} (inside : byte ≤ text.length) :
  CodePointCursor.Counts ⟨text, byte, (text.take byte).countP startsChar⟩
  := ⟨inside, rfl⟩

/-- What the pass over bytes has done is what the pass over characters has done, up to a byte. -/
structure Rejoined.Mirrors (t : Rejoined) (s : Hyphenation.Rejoined) (text : List Char)
    (i : ℕ) : Prop where
  out : t.out = encode s.out
  rejoined : t.rejoined = s.rejoined
  softHyphensRemoved : t.softHyphensRemoved = s.softHyphensRemoved
  removed : t.removed = s.removed
  cursor : t.codePoints.text = encode text
  counts : t.codePoints.Counts
  behind : t.codePoints.byte ≤ i

/-- The runs are recorded in code points. -/
theorem Rejoined.Mirrors.record {t : Rejoined} {s : Hyphenation.Rejoined} {text : List Char}
    {i : ℕ} (h : t.Mirrors s text i) {before run after : List Char}
    (htext : text = before ++ run ++ after) (hbefore : i ≤ (encode before).length) :
  (t.record (encode before).length (encode (before ++ run)).length).Mirrors
    { s with removed := s.removed ++ [⟨before.length, (before ++ run).length⟩] } text
    (encode (before ++ run)).length
  := by
  have hlength : (encode (before ++ run)).length ≤ (encode text).length := by
    rw [htext, encode_append (before ++ run), length_append]
    exact Nat.le_add_right _ _
  have hle : (encode before).length ≤ (encode (before ++ run)).length := by
    rw [encode_append, length_append]
    exact Nat.le_add_right _ _
  have hfirst := CodePointCursor.moveTo_eq h.counts (le_trans h.behind hbefore)
    (by rw [h.cursor]; exact le_trans hle hlength)
  have hlast := CodePointCursor.moveTo_eq
    (@CodePointCursor.counts_take t.codePoints.text (encode before).length
      (by rw [h.cursor]; exact le_trans hle hlength)) hle (by rw [h.cursor]; exact hlength)
  have hbefore' : ((encode text).take (encode before).length).countP startsChar = before.length := by
    rw [htext, append_assoc, encode_append, take_left, countP_encode]
  have hrun : ((encode text).take (encode (before ++ run)).length).countP startsChar =
      (before ++ run).length := by
    rw [htext, encode_append (before ++ run), take_left, countP_encode]
  rw [Rejoined.record, hfirst]
  simp only
  rw [hlast, h.cursor]
  simp only [hbefore', hrun]
  exact ⟨h.out, h.rejoined, h.softHyphensRemoved, by rw [h.removed], rfl,
    CodePointCursor.Counts.mk hlength hrun.symm, le_rfl⟩

/-! ### The pass over bytes -/

theorem utf8EncodeChar_soft :
  String.utf8EncodeChar Hyphenation.kSoftHyphen = kSoftHyphen
  := by decide

/-- A line break has as many bytes as characters. -/
theorem length_encode_take_breakAfter (spaceIsBreak : Bool) (text : List Char) :
  (encode (text.take (Hyphenation.breakAfter spaceIsBreak text))).length =
      Hyphenation.breakAfter spaceIsBreak text
  := by
  unfold Hyphenation.breakAfter
  split
  case h_1 => rfl
  case h_2 => split <;> rfl
  case h_3 => rfl
  case h_4 => rfl

theorem length_encode_leadingWord (text : List Char) :
  (encode (Hyphenation.leadingWord text)).length = (Hyphenation.leadingWord text).length
  := length_encode_ascii fun _ hc => toNat_of_isAsciiAlpha (leadingWord_isAsciiAlpha hc)

/-- The bytes of other characters than the soft hyphen do not start with it. -/
theorem not_soft {c : Char} (hc : c ≠ Hyphenation.kSoftHyphen) (rest : List UInt8) :
  ¬ kSoftHyphen.isPrefixOf (String.utf8EncodeChar c ++ rest)
  := by
  rw [ isPrefixOf_iff_prefix]
  rintro ⟨after, hafter⟩
  apply hc
  unfold String.utf8EncodeChar kSoftHyphen at hafter
  extract_lets v at hafter
  have hlead : ∀ n, (0xC2 : UInt8) = UInt8.ofNat n → n % 256 = 194 := fun n heq => by
    have := congrArg UInt8.toNat heq
    simp at this
    omega
  have hsecond : ∀ n, (0xAD : UInt8) = UInt8.ofNat n → n % 256 = 173 := fun n heq => by
    have := congrArg UInt8.toNat heq
    simp at this
    omega
  split_ifs at hafter with h1 h2 h3
  all_goals
    simp only [cons_append, cons.injEq] at hafter
    have := hlead _ hafter.1
    try omega
  · have := hsecond _ hafter.2.1
    have hv : v = 173 := by omega
    apply Char.ext
    apply UInt32.toNat_inj.mp
    exact hv

/-- Bytes that continue a character are written. -/
theorem rejoinLoop_continuations (spaceIsBreak : Bool) (i : ℕ) (rest : List UInt8) (t : Rejoined)
    {continuations : List UInt8} (h : ∀ byte ∈ continuations, startsChar byte = false) :
  rejoinLoop spaceIsBreak i (continuations ++ rest) t =
    rejoinLoop spaceIsBreak (i + continuations.length) rest
      { t with out := t.out ++ continuations }
  := by
  induction continuations generalizing i t with
  | nil => simp
  | cons byte continuations ih =>
    have hbyte := h byte mem_cons_self
    have hsoft : ¬ kSoftHyphen.isPrefixOf (byte :: (continuations ++ rest)) := by
      rintro hprefix
      rw [kSoftHyphen, isPrefixOf_cons_cons, Bool.and_eq_true, beq_iff_eq] at hprefix
      rw [← hprefix.1] at hbyte
      exact absurd hbyte (by decide)
    have hhard : byte ≠ kHyphen := by
      rintro rfl
      exact absurd hbyte (by decide)
    rw [cons_append, rejoinLoop, if_neg hsoft, if_neg hhard,
      ih _ _ fun byte hmem => h byte (mem_cons_of_mem _ hmem), length_cons]
    simp only [append_assoc, singleton_append, Nat.add_assoc, Nat.add_comm 1]

/-- The bytes of a character that is no hyphen are written. -/
theorem rejoinLoop_char (spaceIsBreak : Bool) (i : ℕ) (rest : List UInt8) (t : Rejoined) {c : Char}
    (hsoft : c ≠ Hyphenation.kSoftHyphen) (hhard : c ≠ '-') :
  rejoinLoop spaceIsBreak i (String.utf8EncodeChar c ++ rest) t =
    rejoinLoop spaceIsBreak (i + (String.utf8EncodeChar c).length) rest
      { t with out := t.out ++ String.utf8EncodeChar c }
  := by
  have hprefix := not_soft hsoft rest
  have hhyphen : kHyphen ∉ String.utf8EncodeChar c := fun hmem => hhard (eq_hyphen_of_mem hmem)
  obtain ⟨lead, continuations, hbytes, hcontinuations⟩ :
      ∃ lead continuations, String.utf8EncodeChar c = lead :: continuations ∧
        ∀ byte ∈ continuations, startsChar byte = false := by
    obtain hc | hc := Nat.lt_or_ge c.toNat 128
    · exact ⟨_, [], utf8EncodeChar_ascii hc, by simp⟩
    · obtain ⟨lead, continuations, heq, -, h⟩ := utf8EncodeChar_wide hc
      exact ⟨lead, continuations, heq, fun byte hbyte => (h byte hbyte).2⟩
  rw [hbytes] at hprefix hhyphen ⊢
  have hlead : lead ≠ kHyphen := fun heq => hhyphen (heq ▸ mem_cons_self)
  rw [cons_append] at hprefix ⊢
  rw [rejoinLoop, if_neg hprefix, if_neg hlead, rejoinLoop_continuations _ _ _ _ hcontinuations]
  simp only [append_assoc, singleton_append, length_cons, Nat.add_assoc,
    Nat.add_comm 1]

section Branches

variable (spaceIsBreak : Bool) (i : ℕ) (behind : List Char) (t : Rejoined)

/-- A soft hyphen is taken out, in bytes. -/
theorem rejoinLoop_soft {skipped : ℕ} (hskipped : skipped = skippedBehindSoft spaceIsBreak behind) :
  rejoinLoop spaceIsBreak i (encode (Hyphenation.kSoftHyphen :: behind)) t =
    rejoinLoop spaceIsBreak (i + 2 + skipped) (encode (behind.drop skipped))
      { t.record i (i + 2 + skipped) with
        softHyphensRemoved := (t.record i (i + 2 + skipped)).softHyphensRemoved + 1 }
  := by
  have hdrop : (encode behind).drop skipped = encode (behind.drop skipped) := by
    rw [hskipped, skippedBehindSoft]
    split
    · rfl
    · exact drop_breakAfter_encode behind spaceIsBreak
  have hcount : (if (leadingWord ((encode behind).drop
        (breakAfter spaceIsBreak (encode behind)))).isEmpty then 0
        else breakAfter spaceIsBreak (encode behind)) = skipped := by
    rw [breakAfter_encode, drop_breakAfter_encode, leadingWord_encode, isEmpty_encode, hskipped]
    rfl
  rw [encode_cons, utf8EncodeChar_soft, kSoftHyphen, cons_append, rejoinLoop,
    if_pos (by rfl)]
  simp only [cons_append, nil_append, drop_succ_cons, drop_zero, hcount, hdrop]
  rfl

/-- A hyphen that breaks no word is written, in bytes. -/
theorem rejoinLoop_kept {out : List Char} (hout : t.out = encode out)
    (h : ¬ Hyphenation.joinable spaceIsBreak (Hyphenation.trailingWord out) behind) :
  rejoinLoop spaceIsBreak i (encode ('-' :: behind)) t =
    rejoinLoop spaceIsBreak (i + 1) (encode behind) { t with out := encode (out ++ ['-']) }
  := by
  have hjoin : ¬ joinable spaceIsBreak (trailingWord t.out) (encode behind) := by
    rwa [hout, trailingWord_encode, joinable_encode]
  rw [encode_cons, utf8EncodeChar_hyphen, singleton_append, rejoinLoop,
    if_neg (by simp [kSoftHyphen, kHyphen]), if_pos rfl]
  simp only [if_neg hjoin]
  rw [hout, encode_append, encode_cons, utf8EncodeChar_hyphen, encode_nil, append_nil]

/-- A hyphen that broke a word is taken out with the break, in bytes. -/
theorem rejoinLoop_joined {out : List Char} (hout : t.out = encode out) {gap : ℕ}
    (hgap : gap = Hyphenation.breakAfter spaceIsBreak behind) {head tail joined : List Char}
    (hhead : head = Hyphenation.trailingWord out)
    (htail : tail = Hyphenation.leadingWord (behind.drop gap))
    (hjoined : joined = Hyphenation.joinHyphenatedFragments head tail) {first : ℕ}
    (hfirst : first = if joined.length > head.length + tail.length then i + 1 else i)
    (h : Hyphenation.joinable spaceIsBreak head behind) :
  rejoinLoop spaceIsBreak i (encode ('-' :: behind)) t =
    rejoinLoop spaceIsBreak (i + 1 + gap + tail.length)
      (encode (behind.drop (gap + tail.length)))
      { t.record first (i + 1 + gap) with
        out := encode (out.take (out.length - head.length) ++ joined)
        rejoined := (t.record first (i + 1 + gap)).rejoined + 1 }
  := by
  have hbyteHead : trailingWord t.out = encode head := by
    rw [hout, hhead, trailingWord_encode]
  have hbyteGap : breakAfter spaceIsBreak (encode behind) = gap := by
    rw [hgap, breakAfter_encode]
  have hbyteBreak : (encode behind).drop gap = encode (behind.drop gap) := by
    rw [hgap, drop_breakAfter_encode]
  have hbyteTail : leadingWord (encode (behind.drop gap)) = encode tail := by
    rw [htail, leadingWord_encode]
  have htailLength : (encode tail).length = tail.length := by
    rw [htail, length_encode_leadingWord]
  have hheadLength : (encode head).length = head.length := by
    rw [hhead]
    exact length_encode_ascii fun _ hc => toNat_of_isAsciiAlpha (mem_rtakeWhile_imp hc)
  have hjoinedLength : (encode joined).length = joined.length := by
    rw [hjoined, Hyphenation.joinHyphenatedFragments]
    split <;> simp [hheadLength, htailLength, utf8EncodeChar_hyphen]
  have hrest : (encode behind).drop (gap + tail.length) =
      encode (behind.drop (gap + tail.length)) := by
    have hbehind : encode (behind.drop gap) =
        encode tail ++ encode (behind.drop (gap + tail.length)) := by
      rw [← encode_append, htail, ← drop_drop, leadingWord_append_drop]
    rw [← drop_drop, hbyteBreak, hbehind, ← htailLength, drop_left]
  have hwritten : t.out.take (t.out.length - head.length) =
      encode (out.take (out.length - head.length)) := by
    have hparts : encode out = encode (out.take (out.length - head.length)) ++ encode head := by
      rw [← encode_append, hhead, take_append_trailingWord]
    rw [hout, hparts, length_append, hheadLength, Nat.add_sub_cancel, take_left]
  have hjoin : joinable spaceIsBreak (encode head) (encode behind) := by
    rwa [joinable_encode]
  rw [encode_cons, utf8EncodeChar_hyphen, singleton_append, rejoinLoop,
    if_neg (by simp [kSoftHyphen, kHyphen]), if_pos rfl]
  simp only [hbyteHead, if_pos hjoin, hbyteGap, hbyteBreak, hbyteTail, joinHyphenatedFragments_encode,
    ← hjoined, htailLength, hheadLength, hjoinedLength, hrest, ← hfirst]
  rw [encode_append, ← hwritten]
  rfl

end Branches

theorem length_take_breakAfter (spaceIsBreak : Bool) (text : List Char) :
  (text.take (Hyphenation.breakAfter spaceIsBreak text)).length =
    Hyphenation.breakAfter spaceIsBreak text
  := by
  unfold Hyphenation.breakAfter
  split
  case h_1 => simp
  case h_2 => split <;> simp
  case h_3 => simp
  case h_4 => simp

theorem length_take_skipped (spaceIsBreak : Bool) (behind : List Char) :
  (behind.take (skippedBehindSoft spaceIsBreak behind)).length =
    skippedBehindSoft spaceIsBreak behind
  := by
  rw [skippedBehindSoft]
  split
  · rfl
  · exact length_take_breakAfter spaceIsBreak behind

theorem length_encode_take_skipped (spaceIsBreak : Bool) (behind : List Char) :
  (encode (behind.take (skippedBehindSoft spaceIsBreak behind))).length =
    skippedBehindSoft spaceIsBreak behind
  := by
  rw [skippedBehindSoft]
  split
  · rfl
  · exact length_encode_take_breakAfter spaceIsBreak behind

/-- The pass over the bytes of a text does what the pass over its characters does. -/
theorem rejoinLoop_mirrors (spaceIsBreak : Bool) (position : ℕ) (behind : List Char)
    (s : Hyphenation.Rejoined) :
  ∀ {t : Rejoined} {front : List Char}, position = front.length →
    t.Mirrors s (front ++ behind) (encode front).length →
    (rejoinLoop spaceIsBreak (encode front).length (encode behind) t).Mirrors
      (Hyphenation.rejoinLoop spaceIsBreak position behind s) (front ++ behind)
      (encode (front ++ behind)).length
  := by
  fun_induction Hyphenation.rejoinLoop spaceIsBreak position behind s with
  | case1 position s =>
    intro t front _ h
    rw [encode_nil, rejoinLoop, append_nil]
    rwa [append_nil] at h
  | case2 position behind s skipped =>
    rename_i ih
    intro t front hfront h
    have hrun : (encode (Hyphenation.kSoftHyphen :: behind.take skipped)).length = 2 + skipped := by
      rw [encode_cons, utf8EncodeChar_soft, length_append, length_encode_take_skipped]
      rfl
    have hparts : front ++ Hyphenation.kSoftHyphen :: behind =
        front ++ (Hyphenation.kSoftHyphen :: behind.take skipped) ++ behind.drop skipped := by
      simp
    have hlength : (encode front).length + 2 + skipped =
        (encode (front ++ Hyphenation.kSoftHyphen :: behind.take skipped)).length := by
      rw [encode_append, length_append, hrun, Nat.add_assoc]
    have hposition : position + 1 + skipped =
        (front ++ Hyphenation.kSoftHyphen :: behind.take skipped).length := by
      rw [hfront, length_append, length_cons, length_take_skipped, Nat.add_assoc,
        Nat.add_comm 1]
    rw [rejoinLoop_soft _ _ _ _ rfl, hlength, hparts]
    apply ih hposition
    have hrecord := h.record hparts le_rfl
    rw [hparts] at hrecord
    obtain ⟨out, rejoined, softHyphensRemoved, removed, cursor, counts, hbehind⟩ := hrecord
    refine ⟨out, rejoined, congrArg (· + 1) softHyphensRemoved, ?_, cursor, counts, hbehind⟩
    rw [← hposition, ← hfront] at removed
    exact removed
  | case3 position behind s head hjoin gap tail joined first =>
    rename_i ih
    intro t front hfront h
    have htake : (behind.take gap).length = gap := length_take_breakAfter spaceIsBreak behind
    have hencode : (encode (behind.take gap)).length = gap :=
      length_encode_take_breakAfter spaceIsBreak behind
    have htail : (encode tail).length = tail.length := length_encode_leadingWord _
    have hbehind : behind = behind.take gap ++ (tail ++ behind.drop (gap + tail.length)) := by
      conv_lhs => rw [← take_append_drop gap behind]
      rw [← drop_drop, leadingWord_append_drop]
    -- The run starts behind the hyphen of a known compound, and at any other hyphen.
    obtain ⟨before, run, hrun, hle, hfirst, hbyteFirst⟩ : ∃ before run,
        before ++ run = front ++ '-' :: behind.take gap ∧
        (encode front).length ≤ (encode before).length ∧ first = before.length ∧
        (if joined.length > head.length + tail.length then (encode front).length + 1
          else (encode front).length) = (encode before).length := by
      by_cases hcompound : joined.length > head.length + tail.length
      · refine ⟨front ++ ['-'], behind.take gap, by simp, by simp, ?_, ?_⟩
        · simp [first, if_pos hcompound, hfront]
        · simp [if_pos hcompound, utf8EncodeChar_hyphen]
      · refine ⟨front, '-' :: behind.take gap, rfl, le_rfl, ?_, ?_⟩
        · simp [first, if_neg hcompound, hfront]
        · simp [if_neg hcompound]
    have hlast : (encode front).length + 1 + gap = (encode (before ++ run)).length := by
      rw [hrun, encode_append, encode_cons, utf8EncodeChar_hyphen, length_append,
        length_append, hencode, length_singleton, Nat.add_assoc]
    have hlastPosition : position + 1 + gap = (before ++ run).length := by
      rw [hrun, length_append, length_cons, htake, hfront, Nat.add_assoc,
        Nat.add_comm 1]
    have hparts : front ++ '-' :: behind =
        before ++ run ++ (tail ++ behind.drop (gap + tail.length)) := by
      rw [hrun, append_assoc, cons_append, ← hbehind]
    have hlength : (encode (before ++ run)).length + tail.length =
        (encode (before ++ run ++ tail)).length := by
      rw [encode_append (before ++ run), length_append, htail]
    have hrecord := h.record hparts hle
    rw [rejoinLoop_joined spaceIsBreak _ behind _ h.out rfl rfl rfl rfl rfl hjoin]
    change Rejoined.Mirrors (rejoinLoop spaceIsBreak ((encode front).length + 1 + gap + tail.length)
      (encode (behind.drop (gap + tail.length))) _) _ _ _
    rw [hlast, hlength, hparts, ← append_assoc]
    apply ih
    · rw [hlastPosition, @length_append _ (before ++ run)]
    rw [hparts, ← append_assoc] at hrecord
    rw [← hbyteFirst] at hrecord
    obtain ⟨out, rejoined, softHyphensRemoved, removed, cursor, counts, hpassed⟩ := hrecord
    refine ⟨rfl, congrArg (· + 1) rejoined, softHyphensRemoved, ?_, cursor, counts, ?_⟩
    · rw [hlastPosition, hfirst]
      exact removed
    · rw [← hlength]
      exact Nat.le_add_right_of_le hpassed
  | case4 position behind s head hjoin =>
    rename_i ih
    intro t front hfront h
    have hlength : (encode front).length + 1 = (encode (front ++ ['-'])).length := by
      simp [utf8EncodeChar_hyphen]
    have hparts : front ++ '-' :: behind = front ++ ['-'] ++ behind := by simp
    rw [rejoinLoop_kept _ _ _ _ h.out hjoin, hlength, hparts]
    apply ih (by simp [hfront])
    obtain ⟨out, rejoined, softHyphensRemoved, removed, cursor, counts, hbehind⟩ := h
    rw [hparts] at cursor
    exact ⟨rfl, rejoined, softHyphensRemoved, removed, cursor, counts, by
      rw [← hlength]; exact Nat.le_succ_of_le hbehind⟩
  | case5 position c behind s hsoft hhard ih =>
    intro t front hfront h
    have hlength : (encode front).length + (String.utf8EncodeChar c).length =
        (encode (front ++ [c])).length := by simp
    have hparts : front ++ c :: behind = front ++ [c] ++ behind := by simp
    rw [encode_cons, rejoinLoop_char _ _ _ _ hsoft hhard, hlength, hparts]
    apply ih (by simp [hfront])
    obtain ⟨out, rejoined, softHyphensRemoved, removed, cursor, counts, hbehind⟩ := h
    rw [hparts] at cursor
    refine ⟨by simp [out], rejoined, softHyphensRemoved, removed, cursor, counts, ?_⟩
    rw [← hlength]
    exact Nat.le_add_right_of_le hbehind

/-- On the bytes of a text the pass does what it does on its characters. -/
theorem rejoinHyphenatedWords_mirrors (spaceIsBreak : Bool) (text : List Char) :
  (rejoinHyphenatedWords spaceIsBreak (encode text)).Mirrors
    (Hyphenation.rejoinLoop spaceIsBreak 0 text {}) text (encode text).length
  := by
  have hstart : Rejoined.Mirrors { codePoints := { text := encode text } } {} ([] ++ text)
      (encode []).length :=
    ⟨rfl, rfl, rfl, rfl, rfl, ⟨Nat.zero_le _, rfl⟩, le_rfl⟩
  exact rejoinLoop_mirrors spaceIsBreak 0 text {} rfl hstart

end GRParse.Hyphenation.Bytes
