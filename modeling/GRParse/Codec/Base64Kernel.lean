import GRParse.Codec.Base64

/-!
# Base64 by a vector kernel

`decode_base64` hands a value to a kernel first, and to the scalar decoder when the kernel fails.
The kernel is another library; what it is known to do is `Strict`.  The two decoders agree on
every value but those that are white space only, from which the kernel reads no bytes and the
scalar decoder none at all.
-/

namespace GRParse.Codec

open List

/-! ### The kernel -/

/-- `simdutf::result`. -/
structure Outcome where
  success : Bool
  count : ℕ
  deriving DecidableEq

/-- The functions of the kernel: how large a buffer it needs for a value, and what it answers and
leaves in the buffer. -/
structure Kernel where
  maximalBinaryLength : List UInt8 → ℕ
  base64ToBinary : List UInt8 → List UInt8 → Outcome × List UInt8

/-- The white space that the kernel leaves out: all but the vertical tab. -/
def isKernelSpace (character : UInt8) : Bool :=
  character ∈ ([0x20, 0x09, 0x0A, 0x0C, 0x0D] : List UInt8)

/-- A value as the kernel reads it. -/
def stripped (value : List UInt8) : List UInt8 :=
  value.filter fun character => !isKernelSpace character

/-- In strict mode the kernel succeeds on the texts of some bytes, padded and with zeros for the
bits that are left over, and writes these bytes. -/
structure Kernel.Strict (kernel : Kernel) : Prop where
  success : ∀ value buffer, buffer.length = kernel.maximalBinaryLength value →
    ((kernel.base64ToBinary value buffer).1.success ↔
      ∃ bytes, Base64.Encodes alphabet bytes (stripped value))
  written : ∀ value buffer bytes, buffer.length = kernel.maximalBinaryLength value →
    Base64.Encodes alphabet bytes (stripped value) →
    (kernel.base64ToBinary value buffer).1.count = bytes.length ∧
      (kernel.base64ToBinary value buffer).2.take bytes.length = bytes

/-- `std::string::resize`. -/
def resize (buffer : List UInt8) (size : ℕ) : List UInt8 :=
  buffer.take size ++ List.replicate (size - buffer.length) 0

/-- `decode_base64`. -/
def decodeBase64 (kernel : Kernel) (value : List UInt8) : Except String (List UInt8) :=
  if value.isEmpty then .error kNotBase64
  else
    let (outcome, decoded) :=
      kernel.base64ToBinary value (resize [] (kernel.maximalBinaryLength value))
    let significant := value.countP fun character => !isspace character
    if !outcome.success then scalarDecodeBase64 value
    else if significant % 4 ≠ 0 then scalarDecodeBase64 value
    else .ok (resize decoded outcome.count)

/-! ### Where the decoders agree -/

theorem isspace_of_isKernelSpace {character : UInt8} (h : isKernelSpace character) :
  isspace character
  := by
  simp only [isKernelSpace, mem_cons, not_mem_nil, or_false, decide_eq_true_eq] at h
  obtain rfl | rfl | rfl | rfl | rfl := h <;> decide

/-- What the kernel keeps of a text is no white space for the scalar decoder either. -/
theorem compact_eq_stripped {value bytes : List UInt8}
    (h : Base64.Encodes alphabet bytes (stripped value)) :
  compact value = stripped value
  := by
  apply filter_congr
  intro character hmem
  cases hkernel : isKernelSpace character with
  | true => rw [isspace_of_isKernelSpace hkernel]
  | false =>
    have hdigit : ∀ d, isspace (digit d) = false := by decide +kernel
    have hkept : character ∈ stripped value := mem_filter.mpr ⟨hmem, by simp [hkernel]⟩
    obtain rfl | ⟨d, rfl⟩ := h.mem character hkept
    · decide
    · exact congrArg not (hdigit d)

section

variable {kernel : Kernel} (hstrict : kernel.Strict) {value bytes : List UInt8}
include hstrict

/-- On the text of some bytes, the kernel gives these. -/
theorem decodeBase64_of_encodes (hvalue : value ≠ [])
    (h : Base64.Encodes alphabet bytes (stripped value)) :
  decodeBase64 kernel value = .ok bytes
  := by
  have hbuffer : (resize [] (kernel.maximalBinaryLength value)).length =
      kernel.maximalBinaryLength value := by
    simp [resize]
  have hsuccess := (hstrict.success value _ hbuffer).mpr ⟨bytes, h⟩
  obtain ⟨hcount, hwritten⟩ := hstrict.written value _ bytes hbuffer h
  have hfours : value.countP (fun character => !isspace character) % 4 = 0 := by
    rw [countP_eq_length_filter, ← compact, compact_eq_stripped h]
    exact Nat.mod_eq_zero_of_dvd h.four_dvd_length
  rw [decodeBase64, if_neg (by simpa using hvalue)]
  generalize kernel.base64ToBinary value (resize [] (kernel.maximalBinaryLength value)) = answer
    at hsuccess hcount hwritten
  have hlong : bytes.length ≤ answer.2.length := by
    have := congrArg length hwritten
    rw [length_take] at this
    omega
  have hresize : resize answer.2 bytes.length = bytes := by
    rw [resize, hwritten, Nat.sub_eq_zero_of_le hlong, replicate_zero, append_nil]
  simp [hsuccess, hfours, hcount, hresize]

/-- On any other value, the scalar decoder has the last word. -/
theorem decodeBase64_of_not_encodes
    (h : ¬ ∃ bytes, Base64.Encodes alphabet bytes (stripped value)) :
  decodeBase64 kernel value = scalarDecodeBase64 value
  := by
  have hvalue : value ≠ [] := by
    rintro rfl
    exact h ⟨[], .nil⟩
  have hbuffer : (resize [] (kernel.maximalBinaryLength value)).length =
      kernel.maximalBinaryLength value := by
    simp [resize]
  have hfails := (hstrict.success value _ hbuffer).not.mpr h
  rw [decodeBase64, if_neg (by simpa using hvalue)]
  simp only [Bool.not_eq_true] at hfails
  simp only [hfails, Bool.not_false, if_true]

end

/-- The decoders agree on all values but those that are made of white space of the kernel. -/
theorem decodeBase64_eq_scalar_iff (kernel : Kernel) (hstrict : kernel.Strict)
    (value : List UInt8) :
  decodeBase64 kernel value = scalarDecodeBase64 value ↔
    value = [] ∨ ∃ character ∈ value, ¬ isKernelSpace character
  := by
  by_cases hencodes : ∃ bytes, Base64.Encodes alphabet bytes (stripped value)
  case neg =>
    rw [decodeBase64_of_not_encodes hstrict hencodes]
    simp only [true_iff]
    by_contra! hspace
    have hempty : stripped value = [] := by
      simpa [stripped, List.filter_eq_nil_iff] using hspace.2
    rw [hempty] at hencodes
    exact hencodes ⟨[], .nil⟩
  obtain ⟨bytes, hbytes⟩ := hencodes
  obtain rfl | hvalue := eq_or_ne value []
  · simp [decodeBase64, scalarDecodeBase64, compact]
  rw [decodeBase64_of_encodes hstrict hvalue hbytes]
  simp only [hvalue, false_or]
  have hcompact := compact_eq_stripped hbytes
  by_cases hspace : ∃ character ∈ value, ¬ isKernelSpace character
  · obtain ⟨character, hmem, hkept⟩ := hspace
    have hstripped : stripped value ≠ [] :=
      List.ne_nil_of_mem (List.mem_filter.mpr ⟨hmem, by simpa using hkept⟩)
    have hscalar := scalarDecodeBase64_of_encodes (hcompact ▸ hbytes)
      fun hnil => hstripped (hbytes.eq_nil_iff.mpr hnil)
    rw [hscalar]
    simpa using ⟨character, hmem, by simpa using hkept⟩
  · have hempty : compact value = [] := by
      rw [hcompact]
      simpa [stripped, List.filter_eq_nil_iff] using hspace
    have hscalar : scalarDecodeBase64 value = .error kNotBase64 := by
      rw [scalarDecodeBase64, hempty]
      rfl
    rw [hscalar]
    simpa using hspace

/-! ### A kernel -/

/-- The bytes of a text, if it is one. -/
def strictly (text : List UInt8) : Option (List UInt8) :=
  match decodeQuads text with
  | .ok bytes => if scalarEncodeBase64 bytes = text then some bytes else none
  | .error _ => none

theorem strictly_eq_some {text bytes : List UInt8} :
  strictly text = some bytes ↔ Base64.Encodes alphabet bytes text
  := by
  constructor
  · intro h
    rw [strictly] at h
    split at h
    · split at h
      case isTrue heq =>
        obtain rfl := Option.some.inj h
        exact heq ▸ encodes_scalarEncodeBase64 _
      case isFalse => cases h
    · cases h
  · intro h
    rw [strictly, decodeQuads_of_encodes h]
    exact if_pos ((encodes_scalarEncodeBase64 bytes).text_unique h)

/-- A kernel that reads one digit after the other. -/
def plainKernel : Kernel where
  maximalBinaryLength value :=
    let padding := ((value.reverse.take 2).takeWhile (· = kPad)).length
    let actual := value.length - padding
    if actual % 4 ≤ 1 then actual / 4 * 3 else actual / 4 * 3 + actual % 4 - 1
  base64ToBinary value buffer :=
    match strictly (stripped value) with
    | some bytes => (⟨true, bytes.length⟩, bytes ++ buffer.drop bytes.length)
    | none => (⟨false, 0⟩, buffer)

theorem plainKernel_strict :
  plainKernel.Strict
  := by
  constructor
  case success =>
    intro value buffer _
    simp only [← strictly_eq_some, plainKernel]
    cases strictly (stripped value) <;> simp
  case written =>
    intro value buffer bytes _ h
    simp [plainKernel, strictly_eq_some.mpr h]

/-- `aGk=`, with a line break. -/
def wrapped : List UInt8 :=
  [0x61, 0x47, 0x0A, 0x6B, 0x3D]

theorem decodeBase64_wrapped :
  decodeBase64 plainKernel wrapped = scalarDecodeBase64 wrapped
  := (decodeBase64_eq_scalar_iff plainKernel plainKernel_strict wrapped).mpr
    (.inr ⟨0x61, by decide, by decide⟩)

/-- From a blank the kernel decodes no bytes, and the scalar decoder refuses it. -/
theorem decodeBase64_blank :
  plainKernel.Strict ∧ decodeBase64 plainKernel [0x20] = .ok [] ∧
    scalarDecodeBase64 [0x20] = .error kNotBase64
  := ⟨plainKernel_strict, rfl, rfl⟩

end GRParse.Codec
