import GRParse.Lib.Utf8
import Mathlib.Data.Nat.Bitwise

/-!
# The chunker's UTF-8

The chunker decodes its texts into code points and encodes ranges of them.  A byte that is not
part of a well-formed sequence decodes to the replacement character on its own, so decoding
never fails.  What was encoded is decoded again whatever bytes follow, and a text may be cut
before any byte that does not continue a sequence.
-/

namespace GRParse.Chunking

open List

/-- The replacement character. -/
def kReplacement : ℕ := 0xFFFD

/-- `sequence_length`: how many bytes a lead byte announces, zero when it cannot lead. -/
def sequenceLength (lead : UInt8) : ℕ :=
  if lead < 0x80 then 1
  else if lead &&& 0xE0 = 0xC0 then 2
  else if lead &&& 0xF0 = 0xE0 then 3
  else if lead &&& 0xF8 = 0xF0 then 4
  else 0

def isContinuation (byte : UInt8) : Bool :=
  byte &&& 0xC0 = 0x80

/-- The bits of a code point that its lead byte holds. -/
def leadBits (lead : UInt8) : ℕ → ℕ
  | 1 => lead.toNat
  | 2 => (lead &&& 0x1F).toNat
  | 3 => (lead &&& 0x0F).toNat
  | _ => (lead &&& 0x07).toNat

/-- The bits of a continuation byte are put behind the others. -/
def addBits (value : ℕ) (next : UInt8) : ℕ :=
  value <<< 6 ||| (next &&& 0x3F).toNat

/-- Whether a sequence of the given length may not have the given value: it is no scalar
value, or fewer bytes could hold it. -/
def malformed (length value : ℕ) : Bool :=
  value > 0x10FFFF || (0xD800 ≤ value && value ≤ 0xDFFF) || (length = 2 && value < 0x80) ||
    (length = 3 && value < 0x800) || (length = 4 && value < 0x10000)

/-- The code point of the sequence that a byte leads, if the sequence is well formed. -/
def sequenceValue (lead : UInt8) (rest : List UInt8) : Option ℕ :=
  let length := sequenceLength lead
  if length = 0 ∨ rest.length + 1 < length then none
  else
    let tail := rest.take (length - 1)
    let value := tail.foldl addBits (leadBits lead length)
    if !tail.all isContinuation || malformed length value then none else some value

/-- The loop of `decode_utf8`, after the given number of bytes that belong to the code point
before. -/
def decodeFrom : ℕ → List UInt8 → List ℕ
  | _, [] => []
  | 0, lead :: rest =>
    match sequenceValue lead rest with
    | some value => value :: decodeFrom (sequenceLength lead - 1) rest
    | none => kReplacement :: decodeFrom 0 rest
  | skip + 1, _ :: rest => decodeFrom skip rest

/-- `decode_utf8`. -/
def decodeUtf8 (text : List UInt8) : List ℕ :=
  decodeFrom 0 text

/-- The sequence of a code point. -/
def encodePoint (value : ℕ) : List UInt8 :=
  if value < 0x80 then [.ofNat value]
  else if value < 0x800 then
    [.ofNat (0xC0 ||| value >>> 6), .ofNat (0x80 ||| value &&& 0x3F)]
  else if value < 0x10000 then
    [.ofNat (0xE0 ||| value >>> 12), .ofNat (0x80 ||| value >>> 6 &&& 0x3F),
      .ofNat (0x80 ||| value &&& 0x3F)]
  else
    [.ofNat (0xF0 ||| value >>> 18), .ofNat (0x80 ||| value >>> 12 &&& 0x3F),
      .ofNat (0x80 ||| value >>> 6 &&& 0x3F), .ofNat (0x80 ||| value &&& 0x3F)]

/-- `encode_utf8`. -/
def encodeUtf8 (points : List ℕ) : List UInt8 :=
  points.flatMap encodePoint

/-- The code points of Unicode that are characters. -/
def IsScalar (value : ℕ) : Prop :=
  value ≤ 0x10FFFF ∧ ¬ (0xD800 ≤ value ∧ value ≤ 0xDFFF)

instance : DecidablePred IsScalar := fun _ => inferInstanceAs (Decidable (_ ∧ _))

/-! ### What is decoded -/

variable {value : ℕ}

theorem isScalar_of_sequenceValue {lead : UInt8} {rest : List UInt8}
    (h : sequenceValue lead rest = some value) :
  IsScalar value
  := by
  unfold sequenceValue at h
  dsimp only at h
  split at h
  · cases h
  · split at h
    · cases h
    · next hwell =>
      obtain rfl := Option.some.inj h
      simp [malformed] at hwell
      constructor
      · omega
      · omega

/-- Decoding gives characters. -/
theorem isScalar_of_mem_decodeFrom {skip : ℕ} {text : List UInt8}
    (h : value ∈ decodeFrom skip text) :
  IsScalar value
  := by
  induction text generalizing skip with
  | nil => simp [decodeFrom] at h
  | cons lead rest ih =>
    cases skip with
    | succ skip => exact ih h
    | zero =>
      rw [decodeFrom] at h
      split at h
      · next point hpoint =>
        obtain rfl | hmem := mem_cons.mp h
        · exact isScalar_of_sequenceValue hpoint
        · exact ih hmem
      · obtain rfl | hmem := mem_cons.mp h
        · decide
        · exact ih hmem

theorem isScalar_of_mem_decodeUtf8 {text : List UInt8} (h : value ∈ decodeUtf8 text) :
  IsScalar value
  := isScalar_of_mem_decodeFrom h

/-! ### Cutting a text -/

variable {before after : List UInt8}

/-- A byte that does not continue a sequence ends the sequence before it. -/
theorem sequenceValue_append {lead : UInt8}
    (hafter : ∀ next, after.head? = some next → isContinuation next = false)
    (hcut : before.length + 1 < sequenceLength lead) :
  sequenceValue lead (before ++ after) = none
  := by
  unfold sequenceValue
  dsimp only
  split
  next => rfl
  next hlong =>
    rw [if_pos]
    obtain ⟨next, after, rfl⟩ : ∃ next rest, after = next :: rest := by
      cases after with
      | nil => simp at hlong; omega
      | cons next rest => exact ⟨next, rest, rfl⟩
    have hmem : next ∈ (before ++ next :: after).take (sequenceLength lead - 1) := by
      rw [take_append, mem_append]
      right
      obtain ⟨k, hk⟩ : ∃ k, sequenceLength lead - 1 - before.length = k + 1 :=
        ⟨sequenceLength lead - 1 - before.length - 1, by omega⟩
      rw [hk]
      exact mem_cons_self
    have hnot := hafter next rfl
    simp only [Bool.or_eq_true, Bool.not_eq_true', all_eq_false]
    exact .inl ⟨next, hmem, by simp [hnot]⟩

/-- A sequence does not depend on what comes behind it. -/
theorem sequenceValue_append_of_le {lead : UInt8} (h : sequenceLength lead ≤ before.length + 1) :
  sequenceValue lead (before ++ after) = sequenceValue lead before
  := by
  unfold sequenceValue
  dsimp only
  have htake : (before ++ after).take (sequenceLength lead - 1) =
      before.take (sequenceLength lead - 1) := by
    rw [take_append_of_le_length]
    omega
  rw [htake]
  congr 1
  rw [length_append]
  apply propext
  constructor <;> omega

theorem sequenceValue_eq_none_of_lt {lead : UInt8} {rest : List UInt8}
    (h : rest.length + 1 < sequenceLength lead) :
  sequenceValue lead rest = none
  := by
  rw [sequenceValue, if_pos (.inr h)]

/-- A text may be cut before a byte that does not continue a sequence. -/
theorem decodeFrom_append {skip : ℕ}
    (hafter : ∀ next, after.head? = some next → isContinuation next = false)
    (hskip : skip ≤ before.length) :
  decodeFrom skip (before ++ after) = decodeFrom skip before ++ decodeFrom 0 after
  := by
  induction before generalizing skip with
  | nil =>
    obtain rfl : skip = 0 := by simpa using hskip
    rfl
  | cons lead rest ih =>
    cases skip with
    | succ skip => exact ih (by simpa using hskip)
    | zero =>
      have hsame : sequenceValue lead (rest ++ after) = sequenceValue lead rest := by
        obtain hle | hlt := le_or_gt (sequenceLength lead) (rest.length + 1)
        · exact sequenceValue_append_of_le hle
        · rw [sequenceValue_append hafter hlt, sequenceValue_eq_none_of_lt hlt]
      rw [cons_append, decodeFrom, decodeFrom, hsame]
      cases hvalue : sequenceValue lead rest with
      | none => simp only [ih (Nat.zero_le _), cons_append]
      | some value =>
        have hlong : sequenceLength lead - 1 ≤ rest.length := by
          by_contra hshort
          rw [sequenceValue_eq_none_of_lt (by omega)] at hvalue
          cases hvalue
        simp only [ih hlong, cons_append]

theorem decodeUtf8_append
    (hafter : ∀ next, after.head? = some next → isContinuation next = false) :
  decodeUtf8 (before ++ after) = decodeUtf8 before ++ decodeUtf8 after
  := decodeFrom_append hafter (Nat.zero_le _)

/-! ### What was encoded is decoded -/

/-- The bits above the last six, with these put behind them, are the number again. -/
theorem shiftLeft_or_and (value : ℕ) :
  (value >>> 6) <<< 6 ||| value &&& 0x3F = value
  := by
  rw [show (0x3F : ℕ) = 2 ^ 6 - 1 by rfl, Nat.and_two_pow_sub_one_eq_mod,
    ← Nat.shiftLeft_add_eq_or_of_lt (Nat.mod_lt _ (by decide)), Nat.shiftLeft_eq,
    Nat.shiftRight_eq_div_pow]
  omega

/-- The last six bits, marked as a continuation, are such and are read back. -/
theorem continuation_spec (value : ℕ) :
  isContinuation (.ofNat (0x80 ||| value &&& 0x3F)) = true ∧
    ∀ bits, addBits bits (.ofNat (0x80 ||| value &&& 0x3F)) = bits <<< 6 ||| value &&& 0x3F
  := by
  have h : ∀ k : Fin 64, isContinuation (.ofNat (0x80 ||| k.val)) = true ∧
      (UInt8.ofNat (0x80 ||| k.val) &&& 0x3F).toNat = k.val := by decide
  have hlow : value &&& 0x3F < 64 := by
    rw [show (0x3F : ℕ) = 2 ^ 6 - 1 by rfl, Nat.and_two_pow_sub_one_eq_mod]
    exact Nat.mod_lt _ (by decide)
  obtain ⟨hcontinues, hbits⟩ := h ⟨value &&& 0x3F, hlow⟩
  refine ⟨hcontinues, fun bits => ?_⟩
  rw [addBits, hbits]

theorem lead_spec_one (h : value < 0x80) :
  sequenceLength (.ofNat value) = 1 ∧ leadBits (.ofNat value) 1 = value
  := by
  have h' : ∀ k : Fin 128, sequenceLength (.ofNat k.val) = 1 ∧
      leadBits (.ofNat k.val) 1 = k.val := by decide
  exact h' ⟨value, h⟩

theorem lead_spec_two {high : ℕ} (h : high < 32) :
  sequenceLength (.ofNat (0xC0 ||| high)) = 2 ∧ leadBits (.ofNat (0xC0 ||| high)) 2 = high
  := by
  have h' : ∀ k : Fin 32, sequenceLength (.ofNat (0xC0 ||| k.val)) = 2 ∧
      leadBits (.ofNat (0xC0 ||| k.val)) 2 = k.val := by decide
  exact h' ⟨high, h⟩

theorem lead_spec_three {high : ℕ} (h : high < 16) :
  sequenceLength (.ofNat (0xE0 ||| high)) = 3 ∧ leadBits (.ofNat (0xE0 ||| high)) 3 = high
  := by
  have h' : ∀ k : Fin 16, sequenceLength (.ofNat (0xE0 ||| k.val)) = 3 ∧
      leadBits (.ofNat (0xE0 ||| k.val)) 3 = k.val := by decide
  exact h' ⟨high, h⟩

theorem lead_spec_four {high : ℕ} (h : high < 8) :
  sequenceLength (.ofNat (0xF0 ||| high)) = 4 ∧ leadBits (.ofNat (0xF0 ||| high)) 4 = high
  := by
  have h' : ∀ k : Fin 8, sequenceLength (.ofNat (0xF0 ||| k.val)) = 4 ∧
      leadBits (.ofNat (0xF0 ||| k.val)) 4 = k.val := by decide
  exact h' ⟨high, h⟩

/-- A sequence of continuations behind its lead is read as one character. -/
theorem sequenceValue_sequence {lead : UInt8} (tail : List UInt8)
    (hlength : sequenceLength lead = tail.length + 1)
    (htail : ∀ byte ∈ tail, isContinuation byte = true)
    (hvalue : tail.foldl addBits (leadBits lead (tail.length + 1)) = value)
    (hwell : malformed (tail.length + 1) value = false) (rest : List UInt8) :
  sequenceValue lead (tail ++ rest) = some value
  := by
  have hall : tail.all isContinuation = true := all_eq_true.mpr htail
  rw [sequenceValue_append_of_le hlength.le, sequenceValue]
  simp only [hlength, Nat.add_sub_cancel, take_length, hvalue, hall, hwell]
  simp

theorem shiftRight_lt (k bound : ℕ) (h : value < bound * 2 ^ k) :
  value >>> k < bound
  := by
  rw [Nat.shiftRight_eq_div_pow]
  exact Nat.div_lt_of_lt_mul (by rwa [Nat.mul_comm] at h)

/-- The encoding of a character is a lead and its continuations, which are read as the
character. -/
structure Sequence (value : ℕ) (lead : UInt8) (tail : List UInt8) : Prop where
  length : sequenceLength lead = tail.length + 1
  continues : ∀ byte ∈ tail, isContinuation byte = true
  reads : ∀ rest, sequenceValue lead (tail ++ rest) = some value

theorem encodePoint_sequence (hvalue : IsScalar value) :
  ∃ lead tail, encodePoint value = lead :: tail ∧ Sequence value lead tail
  := by
  have hbits : ∀ k, (value >>> (k + 6)) <<< 6 ||| value >>> k &&& 0x3F = value >>> k := by
    intro k
    rw [Nat.shiftRight_add]
    exact shiftLeft_or_and (value >>> k)
  obtain ⟨hmax, hsurrogate⟩ := hvalue
  obtain ⟨hcontinues0, hadd0⟩ := continuation_spec value
  obtain ⟨hcontinues6, hadd6⟩ := continuation_spec (value >>> 6)
  obtain ⟨hcontinues12, hadd12⟩ := continuation_spec (value >>> 12)
  have assemble : ∀ {lead : UInt8} {tail : List UInt8},
      sequenceLength lead = tail.length + 1 → (∀ byte ∈ tail, isContinuation byte = true) →
      tail.foldl addBits (leadBits lead (tail.length + 1)) = value →
      malformed (tail.length + 1) value = false →
      ∃ lead' tail', lead :: tail = lead' :: tail' ∧ Sequence value lead' tail' :=
    fun hlength htail hfold hwell =>
      ⟨_, _, rfl, hlength, htail, sequenceValue_sequence _ hlength htail hfold hwell⟩
  unfold encodePoint
  split_ifs with h1 h2 h3
  · obtain ⟨hlength, hlead⟩ := lead_spec_one h1
    apply assemble hlength (by simp) (by simpa using hlead)
    simp [malformed]
    omega
  · obtain ⟨hlength, hlead⟩ := lead_spec_two (shiftRight_lt 6 32 h2)
    apply assemble hlength
    · exact forall_mem_singleton.mpr hcontinues0
    · simp only [foldl_cons, foldl_nil, length_singleton, hlead, hadd0]
      exact hbits 0
    · simp [malformed]
      omega
  · obtain ⟨hlength, hlead⟩ := lead_spec_three (shiftRight_lt 12 16 h3)
    apply assemble hlength
    · exact forall_mem_cons.mpr
        ⟨hcontinues6, forall_mem_singleton.mpr hcontinues0⟩
    · simp only [foldl_cons, foldl_nil, length_cons, length_nil, hlead, hadd6,
        hadd0]
      rw [hbits 6]
      exact hbits 0
    · simp [malformed]
      omega
  · have hhigh : value < 8 * 2 ^ 18 := by omega
    obtain ⟨hlength, hlead⟩ := lead_spec_four (shiftRight_lt 18 8 hhigh)
    apply assemble hlength
    · exact forall_mem_cons.mpr ⟨hcontinues12,
        forall_mem_cons.mpr ⟨hcontinues6, forall_mem_singleton.mpr hcontinues0⟩⟩
    · simp only [foldl_cons, foldl_nil, length_cons, length_nil, hlead, hadd12,
        hadd6, hadd0]
      rw [hbits 12, hbits 6]
      exact hbits 0
    · simp [malformed]
      omega

/-- The bytes of a character are passed together. -/
theorem decodeFrom_length_append (tail rest : List UInt8) :
  decodeFrom tail.length (tail ++ rest) = decodeUtf8 rest
  := by
  induction tail with
  | nil => rfl
  | cons byte tail ih => exact ih

/-- What was encoded is decoded. -/
theorem decodeUtf8_encodePoint (hvalue : IsScalar value) (rest : List UInt8) :
  decodeUtf8 (encodePoint value ++ rest) = value :: decodeUtf8 rest
  := by
  obtain ⟨lead, tail, hencode, hsequence⟩ := encodePoint_sequence hvalue
  rw [hencode, cons_append, decodeUtf8, decodeFrom, hsequence.reads rest, hsequence.length,
    ← decodeFrom_length_append tail rest]
  rfl

theorem decodeUtf8_encodeUtf8_append {points : List ℕ} (h : ∀ value ∈ points, IsScalar value)
    (rest : List UInt8) :
  decodeUtf8 (encodeUtf8 points ++ rest) = points ++ decodeUtf8 rest
  := by
  induction points with
  | nil => rfl
  | cons value points ih =>
    obtain ⟨hvalue, hpoints⟩ := forall_mem_cons.mp h
    rw [encodeUtf8, flatMap_cons, append_assoc, decodeUtf8_encodePoint hvalue]
    exact congrArg (value :: ·) (ih hpoints)

/-- Decoding takes an encoding back to its characters. -/
theorem decodeUtf8_encodeUtf8 {points : List ℕ} (h : ∀ value ∈ points, IsScalar value) :
  decodeUtf8 (encodeUtf8 points) = points
  := by
  have := decodeUtf8_encodeUtf8_append h []
  simpa [decodeUtf8, decodeFrom] using this

/-! ### Texts of characters -/

/-- A text in UTF-8: the encoding of what it is decoded to. -/
def IsUtf8 (text : List UInt8) : Prop :=
  encodeUtf8 (decodeUtf8 text) = text

instance : DecidablePred IsUtf8 := fun _ => inferInstanceAs (Decidable (_ = _))

theorem isUtf8_encodeUtf8 {points : List ℕ} (h : ∀ value ∈ points, IsScalar value) :
  IsUtf8 (encodeUtf8 points)
  := by rw [IsUtf8, decodeUtf8_encodeUtf8 h]

/-- The texts in UTF-8 are the encodings of characters. -/
theorem IsUtf8.exists_points {text : List UInt8} (h : IsUtf8 text) :
  ∃ points, (∀ value ∈ points, IsScalar value) ∧ text = encodeUtf8 points
  := ⟨decodeUtf8 text, fun _ => isScalar_of_mem_decodeUtf8, h.symm⟩

theorem IsUtf8.append (h : IsUtf8 before) (h' : IsUtf8 after) :
  IsUtf8 (before ++ after)
  := by
  obtain ⟨points, hpoints, rfl⟩ := h.exists_points
  obtain ⟨points', hpoints', rfl⟩ := h'.exists_points
  rw [encodeUtf8, encodeUtf8, ← flatMap_append]
  apply isUtf8_encodeUtf8
  intro value hvalue
  exact (mem_append.mp hvalue).elim (hpoints value) (hpoints' value)

theorem IsUtf8.decodeUtf8_append {before : List UInt8} (h : IsUtf8 before) (after : List UInt8) :
  decodeUtf8 (before ++ after) = decodeUtf8 before ++ decodeUtf8 after
  := by
  obtain ⟨points, hpoints, rfl⟩ := h.exists_points
  rw [decodeUtf8_encodeUtf8_append hpoints, decodeUtf8_encodeUtf8 hpoints]

/-- A byte that leads a sequence continues none. -/
theorem isContinuation_of_sequenceLength {lead : UInt8} (h : sequenceLength lead ≠ 0) :
  isContinuation lead = false
  := by
  have ascii : ∀ k : Fin 128, isContinuation (.ofNat k.val) = false := by decide
  have masked : ∀ {mask bits : UInt8}, lead &&& mask = bits → mask &&& 0xC0 = 0xC0 →
      bits &&& 0xC0 = 0xC0 → isContinuation lead = false := by
    intro mask bits hlead hmask hbits
    have : lead &&& 0xC0 = 0xC0 := by
      rw [← hmask, ← UInt8.and_assoc, hlead, hbits, hmask]
    simp [isContinuation, this]
  unfold sequenceLength at h
  split_ifs at h with h1 h2 h3 h4
  · have := ascii ⟨lead.toNat, UInt8.lt_iff_toNat_lt.mp h1⟩
    rwa [UInt8.ofNat_toNat] at this
  · exact masked h2 (by decide) (by decide)
  · exact masked h3 (by decide) (by decide)
  · exact masked h4 (by decide) (by decide)
  · exact absurd rfl h

theorem Sequence.lead {value : ℕ} {lead : UInt8} {tail : List UInt8}
    (h : Sequence value lead tail) :
  isContinuation lead = false
  := isContinuation_of_sequenceLength (by simp [h.length])

/-- A text has as many characters as bytes that continue none. -/
theorem IsUtf8.countP_eq {text : List UInt8} (h : IsUtf8 text) :
  text.countP (!isContinuation ·) = (decodeUtf8 text).length
  := by
  obtain ⟨points, hpoints, rfl⟩ := h.exists_points
  rw [decodeUtf8_encodeUtf8 hpoints, encodeUtf8]
  clear h
  induction points with
  | nil => rfl
  | cons value points ih =>
    obtain ⟨hvalue, hpoints⟩ := forall_mem_cons.mp hpoints
    obtain ⟨lead, tail, hencode, hsequence⟩ := encodePoint_sequence hvalue
    have htail : tail.countP (!isContinuation ·) = 0 :=
      countP_eq_zero.mpr fun byte hbyte => by simp [hsequence.continues byte hbyte]
    rw [flatMap_cons, countP_append, ih hpoints, hencode,
      countP_cons_of_pos (by simp [hsequence.lead]), htail, length_cons]
    omega

/-- A text may be cut where a character begins. -/
theorem IsUtf8.cut {text : List UInt8} (h : IsUtf8 text) {position : ℕ}
    (hcut : ∀ byte, text[position]? = some byte → isContinuation byte = false) :
  IsUtf8 (text.take position) ∧ IsUtf8 (text.drop position)
  := by
  obtain ⟨points, hpoints, rfl⟩ := h.exists_points
  clear h
  induction points generalizing position with
  | nil =>
    constructor
    · simp [encodeUtf8, IsUtf8, decodeUtf8, decodeFrom]
    · simp [encodeUtf8, IsUtf8, decodeUtf8, decodeFrom]
  | cons value points ih =>
    have hwhole := hpoints
    obtain ⟨hvalue, hpoints⟩ := forall_mem_cons.mp hpoints
    obtain ⟨lead, tail, hencode, hsequence⟩ := encodePoint_sequence hvalue
    have hcons : encodeUtf8 (value :: points) = encodePoint value ++ encodeUtf8 points := by
      rw [encodeUtf8, flatMap_cons, encodeUtf8]
    cases position with
    | zero => exact ⟨by rw [take_zero]; decide, isUtf8_encodeUtf8 hwhole⟩
    | succ position =>
      rw [hcons, hencode] at hcut ⊢
      -- inside the first character there are only continuations
      have hpast : tail.length ≤ position := by
        by_contra hinside
        have hlt : position < tail.length := by omega
        have hbyte := hcut tail[position] (by
          rw [cons_append, getElem?_cons_succ, getElem?_append_left hlt,
            getElem?_eq_getElem hlt])
        rw [hsequence.continues _ (getElem_mem hlt)] at hbyte
        cases hbyte
      obtain ⟨rest, rfl⟩ := Nat.exists_eq_add_of_le hpast
      rw [cons_append, getElem?_cons_succ, getElem?_append_right (by omega),
        Nat.add_sub_cancel_left] at hcut
      obtain ⟨hbefore, hafter⟩ := ih hpoints hcut
      rw [cons_append, take_succ_cons, drop_succ_cons, take_length_add_append,
        drop_length_add_append, ← cons_append, ← hencode]
      constructor
      · have hfirst : IsUtf8 (encodePoint value) := by
          have := isUtf8_encodeUtf8 (forall_mem_singleton.mpr hvalue)
          simpa [encodeUtf8] using this
        exact hfirst.append hbefore
      · exact hafter

end GRParse.Chunking

/-!
## The codec is an inverse pair

`decode_utf8` goes from position to position.  Each step passes a sequence that is all there or one
byte, so that the loop ends just behind the last byte.  What it reads of a text of characters is
encoded to the text again, and what it reads of any bytes is read again from its encoding.
-/

namespace GRParse.Chunking

/-! ### The loop -/

section

variable {lead : UInt8} {rest : List UInt8} {value : ℕ}

/-- A sequence that is read has a lead, and is all there. -/
theorem sequenceLength_of_sequenceValue (h : sequenceValue lead rest = some value) :
  0 < sequenceLength lead ∧ sequenceLength lead ≤ rest.length + 1
  := by
  have hnot : ¬ (sequenceLength lead = 0 ∨ rest.length + 1 < sequenceLength lead) := by
    intro hshort
    rw [sequenceValue, if_pos hshort] at h
    cases h
  omega

end

/-- The loop of `decode_utf8`: what it reads from a position on, and where it ends. -/
def decodeLoop (text : List UInt8) (index : ℕ) : List ℕ × ℕ :=
  match _hdrop : text.drop index with
  | [] => ([], index)
  | lead :: rest =>
    match _hvalue : sequenceValue lead rest with
    | some value =>
      let (points, stop) := decodeLoop text (index + sequenceLength lead)
      (value :: points, stop)
    | none =>
      let (points, stop) := decodeLoop text (index + 1)
      (kReplacement :: points, stop)
termination_by text.length - index
decreasing_by
  · have hlength := congrArg List.length _hdrop
    have hpos := (sequenceLength_of_sequenceValue _hvalue).1
    rw [List.length_drop, List.length_cons] at hlength
    omega
  · have hlength := congrArg List.length _hdrop
    rw [List.length_drop, List.length_cons] at hlength
    omega

theorem decodeFrom_drop (skip : ℕ) (text : List UInt8) :
  decodeFrom skip text = decodeFrom 0 (text.drop skip)
  := by
  induction text generalizing skip with
  | nil => simp [decodeFrom]
  | cons lead rest ih =>
    cases skip with
    | zero => rfl
    | succ skip => exact ih skip

section

variable {lead : UInt8} {rest : List UInt8} {value : ℕ}

theorem decodeUtf8_of_some (h : sequenceValue lead rest = some value) :
  decodeUtf8 (lead :: rest) = value :: decodeUtf8 (rest.drop (sequenceLength lead - 1))
  := by
  rw [decodeUtf8, decodeFrom, h, decodeUtf8, ← decodeFrom_drop]

theorem decodeUtf8_of_none (h : sequenceValue lead rest = none) :
  decodeUtf8 (lead :: rest) = kReplacement :: decodeUtf8 rest
  := by
  rw [decodeUtf8, decodeFrom, h, decodeUtf8]

end

/-- The loop reads what is decoded and has then consumed every byte. -/
theorem decodeLoop_eq {text : List UInt8} {index : ℕ} (h : index ≤ text.length) :
  decodeLoop text index = (decodeUtf8 (text.drop index), text.length)
  := by
  fun_induction decodeLoop text index with
  | case1 index hdrop =>
    have hlength := List.drop_eq_nil_iff.mp hdrop
    rw [hdrop]
    exact Prod.ext rfl (Nat.le_antisymm h hlength)
  | case2 index lead rest hdrop value hvalue points stop hloop ih =>
    obtain ⟨hpos, hle⟩ := sequenceLength_of_sequenceValue hvalue
    have hlength := congrArg List.length hdrop
    rw [List.length_drop, List.length_cons] at hlength
    have hrest : text.drop (index + sequenceLength lead) = rest.drop (sequenceLength lead - 1) := by
      obtain ⟨length, hsucc⟩ := Nat.exists_eq_add_one.mpr hpos
      rw [← List.drop_drop, hdrop, hsucc, List.drop_succ_cons, Nat.add_sub_cancel]
    have hih := hloop.symm.trans (ih (by omega))
    rw [hrest] at hih
    obtain ⟨rfl, rfl⟩ := Prod.mk.inj hih
    rw [hdrop, decodeUtf8_of_some hvalue]
  | case3 index lead rest hdrop hvalue points stop hloop ih =>
    have hlength := congrArg List.length hdrop
    rw [List.length_drop, List.length_cons] at hlength
    have hrest : text.drop (index + 1) = rest := by
      rw [← List.drop_drop, hdrop]
      rfl
    have hih := hloop.symm.trans (ih (by omega))
    rw [hrest] at hih
    obtain ⟨rfl, rfl⟩ := Prod.mk.inj hih
    rw [hdrop, decodeUtf8_of_none hvalue]

/-! ### Texts of characters -/

theorem toNat_isScalar (c : Char) : IsScalar c.toNat := by
  obtain h | h := c.valid
  · have hlt : c.toNat < 0xD800 := h
    exact ⟨by omega, by omega⟩
  · have hgt : 0xDFFF < c.toNat := h.1
    have hlt : c.toNat < 0x110000 := h.2
    exact ⟨by omega, by omega⟩

/-- The last six bits, marked as a continuation. -/
theorem continuation_eq (value : ℕ) :
  0x80 ||| value &&& 0x3F = value % 0x40 + 0x80
  := by
  have h : ∀ low : Fin 64, 0x80 ||| low.val = low.val + 0x80 := by decide
  rw [show (0x3F : ℕ) = 2 ^ 6 - 1 by rfl, Nat.and_two_pow_sub_one_eq_mod]
  exact h ⟨value % 0x40, Nat.mod_lt _ (by decide)⟩

/-- A character is encoded the standard way. -/
theorem encodePoint_toNat (c : Char) :
  encodePoint c.toNat = String.utf8EncodeChar c
  := by
  have htwo : ∀ high : Fin 32, 0xC0 ||| high.val = high.val + 0xC0 := by decide
  have hthree : ∀ high : Fin 16, 0xE0 ||| high.val = high.val + 0xE0 := by decide
  have hfour : ∀ high : Fin 8, 0xF0 ||| high.val = high.val + 0xF0 := by decide
  obtain ⟨hmax, -⟩ := toNat_isScalar c
  have hval : c.val.toNat = c.toNat := rfl
  have hbytes : ∀ {high top bound : ℕ}, (∀ k : Fin bound, top ||| k.val = k.val + top) →
      high < bound → top ||| high = high % bound + top := by
    intro high top bound h hlt
    rw [Nat.mod_eq_of_lt hlt]
    exact h ⟨high, hlt⟩
  simp only [encodePoint, String.utf8EncodeChar, hval, Nat.shiftRight_eq_div_pow, continuation_eq]
  have hsame : ∀ {bound : ℕ}, c.toNat < bound + 1 ↔ c.toNat ≤ bound := Nat.lt_add_one_iff
  simp only [show (0x80 : ℕ) = 127 + 1 by rfl, show (0x800 : ℕ) = 2047 + 1 by rfl,
    show (0x10000 : ℕ) = 65535 + 1 by rfl, hsame]
  split_ifs with hone hlow hmid
  · rfl
  · rw [hbytes htwo (by omega)]
  · rw [hbytes hthree (by omega)]
  · rw [hbytes hfour (by omega)]

/-- The code points of a text are encoded to the bytes of the text. -/
theorem encodeUtf8_toNat (chars : List Char) :
  encodeUtf8 (chars.map Char.toNat) = Utf8.encode chars
  := by
  rw [encodeUtf8, List.flatMap_map, Utf8.encode]
  exact List.flatMap_congr fun c _ => encodePoint_toNat c

/-- Decoding takes the bytes of a text to its code points. -/
theorem decodeUtf8_encode (chars : List Char) :
  decodeUtf8 (Utf8.encode chars) = chars.map Char.toNat
  := by
  rw [← encodeUtf8_toNat, decodeUtf8_encodeUtf8]
  intro value hvalue
  obtain ⟨c, -, rfl⟩ := List.mem_map.mp hvalue
  exact toNat_isScalar c

/-- The codec is an inverse pair: on code points, on the bytes of texts, and on what decoding makes
of any bytes, all of which it consumes. -/
theorem codec_inverse :
  (∀ points : List ℕ, (∀ value ∈ points, IsScalar value) →
    (decodeLoop (encodeUtf8 points) 0).1 = points) ∧
  (∀ chars : List Char,
    encodeUtf8 (decodeLoop (Utf8.encode chars) 0).1 = Utf8.encode chars) ∧
  ∀ text : List UInt8, (decodeLoop text 0).2 = text.length ∧
    (decodeLoop (encodeUtf8 (decodeLoop text 0).1) 0).1 = (decodeLoop text 0).1
  := by
  have hloop : ∀ text, decodeLoop text 0 = (decodeUtf8 text, text.length) :=
    fun text => decodeLoop_eq (Nat.zero_le _)
  simp only [hloop]
  refine ⟨fun points => decodeUtf8_encodeUtf8, fun chars => ?_, fun text => ⟨trivial, ?_⟩⟩
  · rw [decodeUtf8_encode, encodeUtf8_toNat]
  · exact decodeUtf8_encodeUtf8 fun _ => isScalar_of_mem_decodeUtf8

/-- The points of an emoji and of a letter are read back. -/
theorem codec_inverse_points :
  (decodeLoop (encodeUtf8 [0x1F600, 0x61]) 0).1 = [0x1F600, 0x61]
  := codec_inverse.1 _ (by decide)

end GRParse.Chunking
