import Mathlib.Data.List.Basic
import Mathlib.Data.Nat.Basic

/-!
# The digest of a file

SHA-256, and the hexadecimal digits in which a digest is written.  A message is read in blocks of
64 bytes; its last bytes are filled up with a terminator, zeros and the length of the message in
bits, to one block or to two.
-/

namespace GRParse.Digest

/-! ### Words -/

def kRoundConstants : List UInt32 :=
  [0x428a2f98, 0x71374491, 0xb5c0fbcf, 0xe9b5dba5, 0x3956c25b, 0x59f111f1, 0x923f82a4, 0xab1c5ed5,
    0xd807aa98, 0x12835b01, 0x243185be, 0x550c7dc3, 0x72be5d74, 0x80deb1fe, 0x9bdc06a7, 0xc19bf174,
    0xe49b69c1, 0xefbe4786, 0x0fc19dc6, 0x240ca1cc, 0x2de92c6f, 0x4a7484aa, 0x5cb0a9dc, 0x76f988da,
    0x983e5152, 0xa831c66d, 0xb00327c8, 0xbf597fc7, 0xc6e00bf3, 0xd5a79147, 0x06ca6351, 0x14292967,
    0x27b70a85, 0x2e1b2138, 0x4d2c6dfc, 0x53380d13, 0x650a7354, 0x766a0abb, 0x81c2c92e, 0x92722c85,
    0xa2bfe8a1, 0xa81a664b, 0xc24b8b70, 0xc76c51a3, 0xd192e819, 0xd6990624, 0xf40e3585, 0x106aa070,
    0x19a4c116, 0x1e376c08, 0x2748774c, 0x34b0bcb5, 0x391c0cb3, 0x4ed8aa4a, 0x5b9cca4f, 0x682e6ff3,
    0x748f82ee, 0x78a5636f, 0x84c87814, 0x8cc70208, 0x90befffa, 0xa4506ceb, 0xbef9a3f7, 0xc67178f2]

def kBlockBytes : ℕ := 64

/-- `read_be32`. -/
def readBe32 (bytes : List UInt8) (offset : ℕ) : UInt32 :=
  let byte (index : ℕ) : UInt32 := (bytes.getD (offset + index) 0).toUInt32
  byte 0 <<< 24 ||| byte 1 <<< 16 ||| byte 2 <<< 8 ||| byte 3

/-- `write_be32`. -/
def writeBe32 (value : UInt32) : List UInt8 :=
  [(value >>> 24).toUInt8, (value >>> 16).toUInt8, (value >>> 8).toUInt8, value.toUInt8]

/-- `std::rotr`. -/
def rotr (value count : UInt32) : UInt32 :=
  value >>> count ||| value <<< (32 - count)

/-! ### Compression -/

/-- The eight words that are carried from block to block. -/
structure State where
  a : UInt32
  b : UInt32
  c : UInt32
  d : UInt32
  e : UInt32
  f : UInt32
  g : UInt32
  h : UInt32

def State.words (state : State) : List UInt32 :=
  [state.a, state.b, state.c, state.d, state.e, state.f, state.g, state.h]

/-- The word behind those of the schedule that are there already. -/
def nextWord (schedule : List UInt32) : UInt32 :=
  let word (back : ℕ) : UInt32 := schedule.getD (schedule.length - back) 0
  let previous := word 15
  let recent := word 2
  let sigma0 := rotr previous 7 ^^^ rotr previous 18 ^^^ previous >>> 3
  let sigma1 := rotr recent 17 ^^^ rotr recent 19 ^^^ recent >>> 10
  word 16 + sigma0 + word 7 + sigma1

/-- The sixty-four words of a block. -/
def schedule (block : List UInt8) : List UInt32 :=
  (List.range 48).foldl (fun words _ => words ++ [nextWord words])
    ((List.range 16).map fun index => readBe32 block (4 * index))

/-- One of the rounds, with its constant and its word. -/
def round (state : State) (constant word : UInt32) : State :=
  let sum1 := rotr state.e 6 ^^^ rotr state.e 11 ^^^ rotr state.e 25
  let choice := state.e &&& state.f ^^^ ~~~state.e &&& state.g
  let temp1 := state.h + sum1 + choice + constant + word
  let sum0 := rotr state.a 2 ^^^ rotr state.a 13 ^^^ rotr state.a 22
  let majority := state.a &&& state.b ^^^ state.a &&& state.c ^^^ state.b &&& state.c
  let temp2 := sum0 + majority
  { a := temp1 + temp2
    b := state.a
    c := state.b
    d := state.c
    e := state.d + temp1
    f := state.e
    g := state.f
    h := state.g }

/-- `compress`. -/
def compress (state : State) (block : List UInt8) : State :=
  let mixed := (kRoundConstants.zip (schedule block)).foldl
    (fun state (constant, word) => round state constant word) state
  { a := state.a + mixed.a
    b := state.b + mixed.b
    c := state.c + mixed.c
    d := state.d + mixed.d
    e := state.e + mixed.e
    f := state.f + mixed.f
    g := state.g + mixed.g
    h := state.h + mixed.h }

/-! ### Digests -/

def initialState : State where
  a := 0x6a09e667
  b := 0xbb67ae85
  c := 0x3c6ef372
  d := 0xa54ff53a
  e := 0x510e527f
  f := 0x9b05688c
  g := 0x1f83d9ab
  h := 0x5be0cd19

/-- The blocks of some bytes, one after another. -/
def compressBlocks (state : State) (bytes : List UInt8) : State :=
  (List.range (bytes.length / kBlockBytes)).foldl
    (fun state index => compress state ((bytes.drop (kBlockBytes * index)).take kBlockBytes)) state

/-- What stands behind the whole blocks: the remainder, the terminator, zeros and the length in
bits. -/
def tail (data : List UInt8) : List UInt8 :=
  let remainder := data.drop (kBlockBytes * (data.length / kBlockBytes))
  let tailBlocks := if remainder.length + 1 + 8 > kBlockBytes then 2 else 1
  let bits := UInt64.ofNat (data.length * 8)
  remainder ++ [(0x80 : UInt8)] ++
    List.replicate (tailBlocks * kBlockBytes - 8 - (remainder.length + 1)) (0 : UInt8) ++
    writeBe32 (bits >>> 32).toUInt32 ++ writeBe32 bits.toUInt32

def sha256 (data : List UInt8) : List UInt8 :=
  (compressBlocks (compressBlocks initialState data) (tail data)).words.flatMap writeBe32

def kDigits : List UInt8 :=
  "0123456789abcdef".toList.map fun c => .ofNat c.toNat

def toHex (bytes : List UInt8) : List UInt8 :=
  bytes.flatMap fun (byte : UInt8) =>
    [kDigits.getD (byte >>> 4).toNat 0, kDigits.getD (byte &&& 0x0f).toNat 0]

def sha256Hex (data : List UInt8) : List UInt8 :=
  toHex (sha256 data)

/-- A digest is 32 bytes long. -/
theorem length_sha256 (data : List UInt8) :
  (sha256 data).length = 32
  := rfl

/-- A digest is written in hexadecimal digits. -/
theorem mem_kDigits_of_mem_toHex {bytes : List UInt8} {digit : UInt8} (h : digit ∈ toHex bytes) :
  digit ∈ kDigits
  := by
  have hdigit : ∀ n < 16, kDigits.getD n 0 ∈ kDigits := by decide
  have hhigh : ∀ byte : UInt8, (byte >>> 4).toNat < 16 := by
    intro byte
    have := byte.toNat_lt
    rw [UInt8.toNat_shiftRight]
    simp [Nat.shiftRight_eq_div_pow]
    omega
  have hlow : ∀ byte : UInt8, (byte &&& 0x0f).toNat < 16 := by
    intro byte
    rw [UInt8.toNat_and]
    exact Nat.lt_of_le_of_lt Nat.and_le_right (by decide)
  obtain ⟨byte, -, hbyte⟩ := List.mem_flatMap.mp h
  rcases List.mem_pair.mp hbyte with rfl | rfl
  · exact hdigit _ (hhigh byte)
  · exact hdigit _ (hlow byte)

example :
  (sha256 [0x61, 0x62, 0x63]).take 8 = [0xba, 0x78, 0x16, 0xbf, 0x8f, 0x01, 0xcf, 0xea]
  := by decide +kernel

end GRParse.Digest
