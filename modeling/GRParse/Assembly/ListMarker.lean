import GRParse.Chunking.Codec

/-!
# List markers

A list item may open with a bullet or a number, then one whitespace character, then content.
The marker is split off its text.  The bytes around a separator that was found are texts of
characters where the whole is, whatever found the marker: no whitespace character begins inside
another character.

The marker that opens a list has a shape, and a word of that shape opens another item of the
list.
-/

namespace GRParse.ListMarker

open Chunking List Option

/-! ### Reading one character -/

/-- One character of a text: its value and how many bytes encode it. -/
structure CodePoint where
  value : ℕ
  length : ℕ

/-- What a byte that is not part of a character is read as. -/
def kMalformed : CodePoint :=
  ⟨0xFFFD, 1⟩

/-- The character whose lead announces a length and holds the given bits, unless it is overlong,
no scalar value or cut short. -/
def decodeTail (rest : List UInt8) (length bits smallest : ℕ) : CodePoint :=
  if rest.length + 1 < length then kMalformed
  else if !(rest.take (length - 1)).all isContinuation then kMalformed
  else
    let value := (rest.take (length - 1)).foldl addBits bits
    if value < smallest ∨ 0x10FFFF < value ∨ 0xD800 ≤ value ∧ value ≤ 0xDFFF then kMalformed
    else ⟨value, length⟩

/-- `decode_at`, of the text from the position on. -/
def decodeAt : List UInt8 → CodePoint
  | [] => kMalformed
  | lead :: rest =>
    if lead < 0x80 then ⟨lead.toNat, 1⟩
    else if lead &&& 0xE0 = 0xC0 then decodeTail rest 2 (lead &&& 0x1F).toNat 0x80
    else if lead &&& 0xF0 = 0xE0 then decodeTail rest 3 (lead &&& 0x0F).toNat 0x800
    else if lead &&& 0xF8 = 0xF0 then decodeTail rest 4 (lead &&& 0x07).toNat 0x10000
    else kMalformed

/-- The loop of `count_code_points`, after the bytes that belong to the character before. -/
def countFrom : ℕ → List UInt8 → ℕ
  | _, [] => 0
  | 0, lead :: rest => countFrom ((decodeAt (lead :: rest)).length - 1) rest + 1
  | skip + 1, _ :: rest => countFrom skip rest

/-- `count_code_points`. -/
def countCodePoints (text : List UInt8) : ℕ :=
  countFrom 0 text

/-! ### Classes of characters -/

/-- The zeros of the decimal digit sets. -/
def kDecimalZeros : List ℕ :=
  [0x30, 0x660, 0x6F0, 0x7C0, 0x966, 0x9E6, 0xA66, 0xAE6, 0xB66, 0xBE6, 0xC66, 0xCE6, 0xD66,
    0xDE6, 0xE50, 0xED0, 0xF20, 0x1040, 0x1090, 0x17E0, 0x1810, 0x1946, 0x19D0, 0x1A80, 0x1A90,
    0x1B50, 0x1BB0, 0x1C40, 0x1C50, 0xA620, 0xA8D0, 0xA900, 0xA9D0, 0xA9F0, 0xAA50, 0xABF0,
    0xFF10, 0x104A0, 0x10D30, 0x10D40, 0x11066, 0x110F0, 0x11136, 0x111D0, 0x112F0, 0x11450,
    0x114D0, 0x11650, 0x116C0, 0x116D0, 0x116DA, 0x11730, 0x118E0, 0x11950, 0x11BF0, 0x11C50,
    0x11D50, 0x11DA0, 0x11F50, 0x16130, 0x16A60, 0x16AC0, 0x16B50, 0x16D70, 0x1CCF0, 0x1D7CE,
    0x1D7D8, 0x1D7E2, 0x1D7EC, 0x1D7F6, 0x1E140, 0x1E2F0, 0x1E4F0, 0x1E5F1, 0x1E950, 0x1FBF0]

/-- `is_decimal`: the last zero that is not above the value is at most nine below it. -/
def isDecimal (value : ℕ) : Bool :=
  (kDecimalZeros.takeWhile (· ≤ value)).getLast?.any fun digitSet => value - digitSet ≤ 9

/-- `is_bullet`. -/
def isBullet (value : ℕ) : Bool :=
  value ∈ [0x2022, 0x2023, 0x25E6, 0x2043, 0x204C, 0x204D, 0x2219, 0x25AA, 0x25AB, 0x25CF,
    0x25CB, 0x2D, 0x2A, 0x2B, 0xB7, 0x25BA, 0x25B6, 0x25B8, 0x27A4, 0x27A2, 0x2713, 0x2714,
    0x2717, 0x2718]

/-- `is_space`. -/
def isSpacePoint (value : ℕ) : Bool :=
  (0x09 ≤ value && value ≤ 0x0D) || (0x1C ≤ value && value ≤ 0x20) || value = 0x85 ||
    value = 0xA0 || value = 0x1680 || (0x2000 ≤ value && value ≤ 0x200A) || value = 0x2028 ||
    value = 0x2029 || value = 0x202F || value = 0x205F || value = 0x3000

/-- `is_choice_box`. -/
def isChoiceBox (value : ℕ) : Bool :=
  0x2610 ≤ value && value ≤ 0x2612

section

variable (text : List UInt8)

/-- `digit_length`. -/
def digitLength (position : ℕ) : ℕ :=
  let point := decodeAt (text.drop position)
  if position < text.length ∧ isDecimal point.value then point.length else 0

/-- `is_digit`. -/
def isDigitAt (position : ℕ) : Bool :=
  digitLength text position ≠ 0

/-- `is_lower`. -/
def isLowerAt (position : ℕ) : Bool :=
  text[position]?.any fun byte => 0x61 ≤ byte && byte ≤ 0x7A

/-- `is_upper`. -/
def isUpperAt (position : ℕ) : Bool :=
  text[position]?.any fun byte => 0x41 ≤ byte && byte ≤ 0x5A

/-- `is_letter`. -/
def isLetterAt (position : ℕ) : Bool :=
  isLowerAt text position || isUpperAt text position

/-- `is_char`. -/
def isCharAt (position : ℕ) (byte : UInt8) : Bool :=
  text[position]? = some byte

/-! ### Numbered markers -/

theorem lt_of_digitLength {text : List UInt8} {position : ℕ} (h : digitLength text position ≠ 0) :
  position < text.length
  := by
  by_contra hbeyond
  exact h (if_neg fun hboth => hbeyond hboth.1)

/-- The loop of `digits`: the end of the digits from a position on. -/
def digitsEnd (position : ℕ) : ℕ :=
  if _h : digitLength text position ≠ 0 then digitsEnd (position + digitLength text position)
  else position
termination_by text.length - position
decreasing_by
  have := lt_of_digitLength _h
  omega

theorem le_digitsEnd (position : ℕ) :
  position ≤ digitsEnd text position
  := by
  fun_induction digitsEnd text position with
  | case1 position _ ih => omega
  | case2 => exact le_rfl

/-- `digits`. -/
def digits (position : ℕ) : Option ℕ :=
  if isDigitAt text position then some (digitsEnd text position) else none

/-- `run_of`. -/
def runOf (position : ℕ) (set : List UInt8) : Option ℕ :=
  match ((text.drop position).takeWhile (· ∈ set)).length with
  | 0 => none
  | length => some (position + length)

/-- `then_char`. -/
def thenChar (position : Option ℕ) (byte : UInt8) : Option ℕ :=
  position.bind fun position => if isCharAt text position byte then some (position + 1) else none

/-- The loop of `dotted_outline`: the end of the groups from a position on, and how many there
are. -/
def outlineGroups (position groups : ℕ) : ℕ × ℕ :=
  if _h : isCharAt text position 0x2E ∧ isDigitAt text (position + 1) then
    outlineGroups (digitsEnd text (position + 1)) (groups + 1)
  else (position, groups)
termination_by text.length - position
decreasing_by
  have hle := le_digitsEnd text (position + 1)
  have hlt : position + 1 < text.length :=
    lt_of_digitLength (by simpa [isDigitAt] using _h.2)
  omega

/-- `dotted_outline`. -/
def dottedOutline : Option ℕ :=
  (digits text 0).bind fun position =>
    match outlineGroups text position 0 with
    | (_, 0) => none
    | (position, _) => if isCharAt text position 0x2E then some (position + 1) else some position

/-- `number_letter`. -/
def numberLetter (position : ℕ) (close : UInt8) : Option ℕ :=
  (digits text position).bind fun position =>
    let position := if isCharAt text position 0x2E then position + 1 else position
    if isLetterAt text position then thenChar text (some (position + 1)) close else none

end

/-- The small roman digits. -/
def kLowerRoman : List UInt8 :=
  [0x69, 0x76, 0x78, 0x6C, 0x63, 0x64, 0x6D]

/-- The capital roman digits. -/
def kUpperRoman : List UInt8 :=
  [0x49, 0x56, 0x58, 0x4C, 0x43, 0x44, 0x4D]

/-- `kNumberedPatterns`: each gives the end of its marker. -/
def kNumberedPatterns : List (List UInt8 → Option ℕ) :=
  [dottedOutline,
    fun text => numberLetter text 0 0x2E,
    fun text => numberLetter text 0 0x29,
    fun text => if isCharAt text 0 0x28 then numberLetter text 1 0x29 else none,
    fun text => thenChar text (digits text 0) 0x2E,
    fun text => thenChar text (digits text 0) 0x29,
    fun text => if isCharAt text 0 0x28 then thenChar text (digits text 1) 0x29 else none,
    fun text => if isCharAt text 0 0x5B then thenChar text (digits text 1) 0x5D else none,
    fun text => thenChar text (runOf text 0 kLowerRoman) 0x2E,
    fun text => thenChar text (runOf text 0 kUpperRoman) 0x2E,
    fun text => if isLowerAt text 0 then thenChar text (some 1) 0x2E else none,
    fun text => if isUpperAt text 0 then thenChar text (some 1) 0x2E else none,
    fun text => if isLowerAt text 0 then thenChar text (some 1) 0x29 else none,
    fun text => if isUpperAt text 0 then thenChar text (some 1) 0x29 else none]

/-- Whether a position is followed by one whitespace character and content. -/
def separatesAt (text : List UInt8) (position : ℕ) : Bool :=
  let separator := decodeAt (text.drop position)
  position < text.length && isSpacePoint separator.value &&
    position + separator.length < text.length

/-- `numbered_marker_end`. -/
def numberedMarkerEnd (text : List UInt8) : Option ℕ :=
  kNumberedPatterns.findSome? fun pattern => (pattern text).filter (separatesAt text)

/-! ### Splitting -/

/-- A marker and the text behind it, and how many characters were before the text. -/
structure ListMarkerSplit where
  marker : List UInt8
  text : List UInt8
  enumerated : Bool
  prefixCodePoints : ℕ

/-- The end of the marker a text opens with, and whether it is a number. -/
def markerEnd (orig : List UInt8) : Option (ℕ × Bool) :=
  let first := decodeAt orig
  if isBullet first.value ∧ separatesAt orig first.length then some (first.length, false)
  else (numberedMarkerEnd orig).map (·, true)

/-- `split_list_marker`. -/
def splitListMarker (orig : List UInt8) : Option ListMarkerSplit :=
  if orig = [] then none
  else
    (markerEnd orig).map fun (position, enumerated) =>
      let separator := decodeAt (orig.drop position)
      { marker := orig.take position
        text := orig.drop (position + separator.length)
        enumerated := enumerated
        prefixCodePoints := countCodePoints (orig.take position) + 1 }

/-! ### What a split leaves -/

/-- A character is read where the decoder finds one. -/
theorem decodeAt_cons (lead : UInt8) (rest : List UInt8) :
  decodeAt (lead :: rest)
    = (sequenceValue lead rest).elim kMalformed fun value => ⟨value, sequenceLength lead⟩
  := by
  have tail : ∀ {length bits smallest : ℕ},
      sequenceLength lead = length → length ≠ 0 → leadBits lead length = bits →
      (∀ value, malformed length value = true ↔
        value < smallest ∨ 0x10FFFF < value ∨ 0xD800 ≤ value ∧ value ≤ 0xDFFF) →
      decodeTail rest length bits smallest
        = (sequenceValue lead rest).elim kMalformed fun value => ⟨value, length⟩ := by
    rintro length bits smallest hlength hpos rfl hmalformed
    rw [decodeTail, sequenceValue]
    simp only [hlength, hpos, false_or, ← hmalformed]
    by_cases hshort : rest.length + 1 < length
    · simp only [if_pos hshort, elim_none]
    · simp only [if_neg hshort]
      cases hall : (rest.take (length - 1)).all isContinuation
      · simp
      · cases hwell : malformed length ((rest.take (length - 1)).foldl addBits (leadBits lead length))
        · simp
        · simp
  by_cases h1 : lead < 0x80
  · have hlength : sequenceLength lead = 1 := by simp [sequenceLength, h1]
    have hvalue : sequenceValue lead rest = some lead.toNat := by
      have hlt : lead.toNat < 128 := h1
      simp [sequenceValue, hlength, leadBits, malformed]
      omega
    rw [decodeAt, if_pos h1, hvalue, hlength]
    rfl
  rw [decodeAt, if_neg h1]
  split_ifs with h2 h3 h4
  · have hlength : sequenceLength lead = 2 := by simp [sequenceLength, h1, h2]
    rw [hlength]
    apply tail hlength (by decide) rfl
    intro value
    simp only [malformed, Bool.or_eq_true, Bool.and_eq_true, decide_eq_true_eq, true_and]
    omega
  · have hlength : sequenceLength lead = 3 := by simp [sequenceLength, h1, h2, h3]
    rw [hlength]
    apply tail hlength (by decide) rfl
    intro value
    simp only [malformed, Bool.or_eq_true, Bool.and_eq_true, decide_eq_true_eq, true_and]
    omega
  · have hlength : sequenceLength lead = 4 := by simp [sequenceLength, h1, h2, h3, h4]
    rw [hlength]
    apply tail hlength (by decide) rfl
    intro value
    simp only [malformed, Bool.or_eq_true, Bool.and_eq_true, decide_eq_true_eq, true_and]
    omega
  · have hlength : sequenceLength lead = 0 := by simp [sequenceLength, h1, h2, h3, h4]
    simp [sequenceValue, hlength]

/-- As many characters are counted as are decoded. -/
theorem countFrom_eq (skip : ℕ) (text : List UInt8) :
  countFrom skip text = (decodeFrom skip text).length
  := by
  induction text generalizing skip with
  | nil =>
    rw [countFrom, decodeFrom]
    rfl
  | cons lead rest ih =>
    cases skip with
    | succ skip => exact ih skip
    | zero =>
      rw [countFrom, decodeFrom, decodeAt_cons, ih]
      cases sequenceValue lead rest with
      | none => rfl
      | some value => rfl

/-- A separator is one whitespace character, with a text of characters on either side. -/
structure Separates (text : List UInt8) (position length : ℕ) (value : ℕ) : Prop where
  space : isSpacePoint value
  scalar : IsScalar value
  parts : text = text.take position ++ (encodePoint value ++ text.drop (position + length))
  before : IsUtf8 (text.take position)
  after : IsUtf8 (text.drop (position + length))
  content : text.drop (position + length) ≠ []

theorem separates_of_separatesAt {text : List UInt8} (htext : IsUtf8 text) {position : ℕ}
    (h : separatesAt text position) :
  ∃ value, Separates text position (decodeAt (text.drop position)).length value
  := by
  simp only [separatesAt, Bool.and_eq_true, decide_eq_true_eq] at h
  obtain ⟨⟨hposition, hspace⟩, hcontent⟩ := h
  obtain ⟨lead, rest, hdrop⟩ := exists_cons_of_ne_nil (drop_eq_nil_iff.not.mpr
    (by omega : ¬ text.length ≤ position))
  have hlead : text[position]? = some lead := by
    rw [← head?_drop, hdrop, head?_cons]
  rw [hdrop, decodeAt_cons] at hspace hcontent ⊢
  -- what is no character is read as no whitespace
  cases hvalue : sequenceValue lead rest with
  | none =>
    rw [hvalue, elim_none] at hspace
    exact absurd hspace (by decide)
  | some value =>
    rw [hvalue, elim_some] at hspace hcontent
    have hstarts : isContinuation lead = false := by
      apply isContinuation_of_sequenceLength
      intro hzero
      simp [sequenceValue, hzero] at hvalue
    obtain ⟨hbefore, hfrom⟩ := htext.cut fun byte hbyte => by
      rwa [← some.inj (hlead.symm.trans hbyte)]
    obtain ⟨points, hpoints, hencode⟩ := hfrom.exists_points
    cases points with
    | nil => simp [hdrop, encodeUtf8] at hencode
    | cons first points =>
      obtain ⟨hfirst, hpoints⟩ := forall_mem_cons.mp hpoints
      obtain ⟨lead', tail, hsplit, hsequence⟩ := encodePoint_sequence hfirst
      rw [encodeUtf8, flatMap_cons, ← encodeUtf8, hsplit, cons_append, hdrop] at hencode
      obtain ⟨rfl, rfl⟩ := cons.inj hencode
      obtain rfl : first = value := some.inj ((hsequence.reads _).symm.trans hvalue)
      have hafter : text.drop (position + sequenceLength lead) = encodeUtf8 points := by
        rw [← drop_drop, hdrop, hsequence.length, drop_succ_cons, drop_left]
      use first
      rw [elim_some]
      constructor
      case space => exact hspace
      case scalar => exact hfirst
      case parts =>
        rw [hafter, hsplit, cons_append, ← hdrop, take_append_drop]
      case before => exact hbefore
      case after =>
        rw [hafter]
        exact isUtf8_encodeUtf8 hpoints
      case content =>
        rw [Ne, drop_eq_nil_iff]
        omega

/-- A marker is found only where a separator and content follow. -/
theorem separatesAt_of_markerEnd {orig : List UInt8} {position : ℕ} {enumerated : Bool}
    (h : markerEnd orig = some (position, enumerated)) :
  separatesAt orig position
  := by
  unfold markerEnd at h
  dsimp only at h
  split at h
  case isTrue hbullet =>
    cases h
    exact hbullet.2
  case isFalse =>
    obtain ⟨found, hfound, heq⟩ := map_eq_some_iff.mp h
    cases heq
    obtain ⟨pattern, -, hpattern⟩ := exists_of_findSome?_eq_some hfound
    exact (filter_eq_some_iff.mp hpattern).2

/-- What a split leaves of a text: the marker, one whitespace character, and the text behind it,
which is not empty.  The characters before the text are counted. -/
structure Splits (orig : List UInt8) (split : ListMarkerSplit) (separator : ℕ) : Prop where
  space : isSpacePoint separator
  parts : orig = split.marker ++ (encodePoint separator ++ split.text)
  marker : IsUtf8 split.marker
  text : IsUtf8 split.text
  content : split.text ≠ []
  points : decodeUtf8 orig = decodeUtf8 split.marker ++ separator :: decodeUtf8 split.text
  prefixed : split.prefixCodePoints = (decodeUtf8 split.marker).length + 1

theorem splits_splitListMarker {orig : List UInt8} {split : ListMarkerSplit}
    (horig : IsUtf8 orig) (h : splitListMarker orig = some split) :
  ∃ separator, Splits orig split separator
  := by
  unfold splitListMarker at h
  split at h
  case isTrue => cases h
  case isFalse =>
    obtain ⟨⟨position, enumerated⟩, hend, rfl⟩ := map_eq_some_iff.mp h
    obtain ⟨value, hvalue⟩ :=
      separates_of_separatesAt horig (separatesAt_of_markerEnd hend)
    use value
    constructor
    case space => exact hvalue.space
    case parts => exact hvalue.parts
    case marker => exact hvalue.before
    case text => exact hvalue.after
    case content => exact hvalue.content
    case points =>
      rw [← decodeUtf8_encodePoint hvalue.scalar, ← hvalue.before.decodeUtf8_append]
      exact congrArg decodeUtf8 hvalue.parts
    case prefixed => exact congrArg (· + 1) (countFrom_eq 0 _)

/-! ### Shapes -/

/-- The loop of `marker_shape` over a numbering form, after the bytes that belong to the digit
before: a run of digits is one `0`, one of letters is one `a` or `A`. -/
def shapeFrom : ℕ → List UInt8 → List UInt8 → List UInt8
  | _, [], shape => shape
  | 0, byte :: rest, shape =>
    let digit := digitLength (byte :: rest) 0
    let read :=
      if digit ≠ 0 then 0x30
      else if isLowerAt (byte :: rest) 0 then 0x61
      else if isUpperAt (byte :: rest) 0 then 0x41
      else byte
    let run := read = 0x30 ∨ read = 0x61 ∨ read = 0x41
    shapeFrom (digit - 1) rest
      (if ¬ run ∨ shape = [] ∨ shape.getLast? ≠ some read then shape ++ [read] else shape)
  | skip + 1, _ :: rest, shape => shapeFrom skip rest shape

/-- `marker_shape`. -/
def markerShape (token : List UInt8) : Option (List UInt8) :=
  if token = [] then none
  else
    let first := decodeAt token
    if first.length = token.length ∧ isBullet first.value then some token
    else if first.length = token.length ∧ isChoiceBox first.value then some [0xE2, 0x98, 0x90]
    else if kNumberedPatterns.any fun pattern => pattern token = some token.length then
      some (shapeFrom 0 token [])
    else none

/-- `is_sibling_list_marker`. -/
def isSiblingListMarker (lead token : List UInt8) : Bool :=
  (markerShape lead).isSome && markerShape token = markerShape lead

end GRParse.ListMarker
