import Mathlib.Data.List.Basic
import Mathlib.Tactic.Ring

/-!
# Little-endian fields

Numbers of 16 and of 32 bits among bytes, the least significant byte first.  A field is read at
an offset; past the fields before it, it is read at what is left of the offset.
-/

namespace LittleEndian

open List

/-- The bytes of a 16-bit number. -/
def put16 (value : UInt16) : List UInt8 :=
  [value.toUInt8, (value >>> 8).toUInt8]

/-- The bytes of a 32-bit number. -/
def put32 (value : UInt32) : List UInt8 :=
  [value.toUInt8, (value >>> 8).toUInt8, (value >>> 16).toUInt8, (value >>> 24).toUInt8]

/-- The 16-bit number at an offset; bytes that are missing are zero. -/
def le16 (bytes : List UInt8) (offset : ℕ) : UInt32 :=
  (bytes.getD offset 0).toUInt32 ||| (bytes.getD (offset + 1) 0).toUInt32 <<< 8

/-- The 32-bit number at an offset. -/
def le32 (bytes : List UInt8) (offset : ℕ) : UInt32 :=
  le16 bytes offset ||| le16 bytes (offset + 2) <<< 16

@[simp]
theorem length_put16 (value : UInt16) :
  (put16 value).length = 2
  := rfl

@[simp]
theorem length_put32 (value : UInt32) :
  (put32 value).length = 4
  := rfl

variable {bytes : List UInt8} {offset : ℕ}

@[simp]
theorem le16_put16 (value : UInt16) :
  le16 (put16 value ++ bytes) 0 = value.toUInt32
  := by
  apply UInt32.eq_of_toBitVec_eq
  simp only [le16, put16, cons_append, nil_append, getD_cons_zero,
    getD_cons_succ, UInt32.toBitVec_or, UInt32.toBitVec_shiftLeft, UInt8.toBitVec_toUInt32,
    UInt16.toBitVec_toUInt8, UInt16.toBitVec_shiftRight, UInt16.toBitVec_ofNat,
    UInt32.toBitVec_ofNat, UInt16.toBitVec_toUInt32]
  ext i hi
  simp [BitVec.getElem_setWidth, -BitVec.setWidth_setWidth]
  grind

@[simp]
theorem le32_put32 (value : UInt32) :
  le32 (put32 value ++ bytes) 0 = value
  := by
  apply UInt32.eq_of_toBitVec_eq
  simp only [le32, le16, put32, cons_append, nil_append, getD_cons_zero,
    getD_cons_succ, UInt32.toBitVec_or, UInt32.toBitVec_shiftLeft, UInt8.toBitVec_toUInt32,
    UInt32.toBitVec_toUInt8, UInt32.toBitVec_shiftRight, UInt32.toBitVec_ofNat]
  ext i hi
  simp [BitVec.getElem_setWidth, -BitVec.setWidth_setWidth]
  grind

/-- A field behind other bytes. -/
theorem le16_append (before : List UInt8) {start : ℕ} (h : before.length = start) :
  le16 (before ++ bytes) (start + offset) = le16 bytes offset
  := by
  subst h
  simp [le16, getD_eq_getElem?_getD, getElem?_append_right, Nat.add_assoc]

theorem le32_append (before : List UInt8) {start : ℕ} (h : before.length = start) :
  le32 (before ++ bytes) (start + offset) = le32 bytes offset
  := by
  rw [le32, le16_append before h, Nat.add_assoc, le16_append before h, le32]

@[simp]
theorem le16_put16_append (value : UInt16) :
  le16 (put16 value ++ bytes) (offset + 2) = le16 bytes offset
  := by
  rw [Nat.add_comm, le16_append _ (length_put16 value)]

@[simp]
theorem le16_put32_append (value : UInt32) :
  le16 (put32 value ++ bytes) (offset + 4) = le16 bytes offset
  := by
  rw [Nat.add_comm, le16_append _ (length_put32 value)]

@[simp]
theorem le32_put16_append (value : UInt16) :
  le32 (put16 value ++ bytes) (offset + 2) = le32 bytes offset
  := by
  rw [Nat.add_comm, le32_append _ (length_put16 value)]

@[simp]
theorem le32_put32_append (value : UInt32) :
  le32 (put32 value ++ bytes) (offset + 4) = le32 bytes offset
  := by
  rw [Nat.add_comm, le32_append _ (length_put32 value)]

end LittleEndian

/-!
## Numbers read from bytes

A number is read from some bytes of a buffer, byte by byte.  A byte outside the buffer cannot be
read; where all bytes are inside, the number is that which they spell.
-/

namespace ByteReads

/-- Where the byte of a number is read from that has so many bytes before it. -/
def bytePlace (place width : ℕ) (little : Bool) (index : ℕ) : ℕ :=
  place + if little then width - 1 - index else index

/-- A number of some bytes, the most significant byte first unless it is little-endian. -/
def readUint (bytes : List UInt8) (place width : ℕ) (little : Bool) : Option ℕ :=
  (List.range width).foldlM (fun value index =>
    bytes[bytePlace place width little index]?.map fun byte => value * 256 + byte.toNat) 0

/-- The number that bytes spell; bytes that are missing are zero. -/
def numberAt (bytes : List UInt8) (place width : ℕ) (little : Bool) : ℕ :=
  (List.range width).foldl (fun value index =>
    value * 256 + (bytes.getD (bytePlace place width little index) 0).toNat) 0

variable {bytes : List UInt8} {place width : ℕ} {little : Bool}

/-- Inside the buffer a number can be read. -/
theorem readUint_eq (h : place + width ≤ bytes.length) :
  readUint bytes place width little = some (numberAt bytes place width little)
  := by
  have hstep : ∀ (indices : List ℕ) (value : ℕ), (∀ index ∈ indices, index < width) →
      indices.foldlM (fun value index => bytes[bytePlace place width little index]?.map fun byte =>
        value * 256 + byte.toNat) value =
      some (indices.foldl (fun value index =>
        value * 256 + (bytes.getD (bytePlace place width little index) 0).toNat) value) := by
    intro indices
    induction indices with
    | nil => exact fun _ _ => rfl
    | cons index indices ih =>
      intro value hindices
      obtain ⟨hindex, hindices⟩ := List.forall_mem_cons.mp hindices
      have hlt : bytePlace place width little index < bytes.length := by
        rw [bytePlace]
        split <;> omega
      rw [List.foldlM_cons, List.foldl_cons, List.getD_eq_getElem?_getD,
        List.getElem?_eq_getElem hlt]
      exact ih _ hindices
  exact hstep _ 0 fun index => List.mem_range.mp

theorem numberAt_lt :
  numberAt bytes place width little < 256 ^ width
  := by
  have hstep : ∀ (indices : List ℕ) (value : ℕ), indices.foldl (fun value index =>
      value * 256 + (bytes.getD (bytePlace place width little index) 0).toNat) value <
        (value + 1) * 256 ^ indices.length := by
    intro indices
    induction indices with
    | nil =>
      intro value
      simp
    | cons index indices ih =>
      intro value
      have hbyte := (bytes.getD (bytePlace place width little index) 0).toNat_lt
      rw [List.foldl_cons, List.length_cons, pow_succ]
      refine (ih _).trans_le ?_
      have hle : value * 256 + (bytes.getD (bytePlace place width little index) 0).toNat + 1 ≤
          (value + 1) * 256 := by omega
      calc _ ≤ (value + 1) * 256 * 256 ^ indices.length := Nat.mul_le_mul_right _ hle
        _ = _ := by ring
  have h := hstep (List.range width) 0
  rwa [List.length_range, Nat.zero_add, Nat.one_mul] at h

end ByteReads
