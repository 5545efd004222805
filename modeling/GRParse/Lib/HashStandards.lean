import Mathlib.Data.Nat.Find
import Mathlib.Algebra.Order.Ring.Nat

/-!
# SHA-256 and HMAC

The hash of a message, as FIPS 180-4 defines it, and the authentication code that RFC 2104 builds
of any hash.  A message is padded to whole blocks by a one bit, the least number of zeros and its
length; each block changes the eight words of the hash by sixty-four rounds.
-/

namespace HashStandards

open List

/-! ### Numbers of several bytes -/

/-- The number that bytes spell, the most significant one first. -/
def bigEndian (bytes : List UInt8) : ℕ :=
  bytes.foldl (fun value byte => value * 256 + byte.toNat) 0

/-- The last bytes of a number, the most significant one first. -/
def bigEndianBytes (count value : ℕ) : List UInt8 :=
  (List.range count).map fun index => UInt8.ofNat (value / 256 ^ (count - 1 - index))

theorem bigEndianBytes_add (count count' value : ℕ) :
  bigEndianBytes (count + count') value =
    bigEndianBytes count (value / 256 ^ count') ++ bigEndianBytes count' value
  := by
  rw [bigEndianBytes, range_add, map_append, map_map]
  congr 1
  · apply map_congr_left
    intro index hindex
    have hlt := mem_range.mp hindex
    rw [Nat.div_div_eq_div_mul, ← pow_add]
    congr 3
    omega
  · apply map_congr_left
    intro index hindex
    have hlt := mem_range.mp hindex
    rw [Function.comp_apply]
    congr 3
    omega

/-- The last bytes do not depend on those before them. -/
theorem bigEndianBytes_mod (count value : ℕ) :
  bigEndianBytes count (value % 256 ^ count) = bigEndianBytes count value
  := by
  apply map_congr_left
  intro index hindex
  have hlt := mem_range.mp hindex
  have hpow : 256 ^ count = 256 ^ (count - 1 - index) * 256 ^ (index + 1) := by
    rw [← pow_add]
    congr 1
    omega
  have hdvd : 256 ∣ 256 ^ (index + 1) := Dvd.intro_left (256 ^ index) rfl
  apply UInt8.toNat_inj.mp
  rw [hpow, Nat.mod_mul_right_div_self, UInt8.toNat_ofNat', UInt8.toNat_ofNat']
  exact Nat.mod_mod_of_dvd _ hdvd

/-! ### Words -/

abbrev Word := BitVec 32

namespace Word

def ch (x y z : Word) : Word := (x &&& y) ^^^ (~~~x &&& z)

def maj (x y z : Word) : Word := (x &&& y) ^^^ (x &&& z) ^^^ (y &&& z)

def upperSigma0 (x : Word) : Word := x.rotateRight 2 ^^^ x.rotateRight 13 ^^^ x.rotateRight 22

def upperSigma1 (x : Word) : Word := x.rotateRight 6 ^^^ x.rotateRight 11 ^^^ x.rotateRight 25

def lowerSigma0 (x : Word) : Word := x.rotateRight 7 ^^^ x.rotateRight 18 ^^^ x >>> 3

def lowerSigma1 (x : Word) : Word := x.rotateRight 17 ^^^ x.rotateRight 19 ^^^ x >>> 10

end Word

/-! ### Constants -/

/-- The greatest number whose power is at most a number. -/
def root (power number : ℕ) : ℕ :=
  Nat.findGreatest (fun candidate => candidate ^ power ≤ number) number

theorem root_eq {power number candidate : ℕ} (hpower : power ≠ 0)
    (hlower : candidate ^ power ≤ number) (hupper : number < (candidate + 1) ^ power) :
  root power number = candidate
  := by
  apply Nat.findGreatest_eq_iff.mpr
  refine ⟨?_, fun _ => hlower, ?_⟩
  · exact (Nat.le_self_pow hpower candidate).trans hlower
  · intro other hother _ hle
    have hmono : (candidate + 1) ^ power ≤ other ^ power := Nat.pow_le_pow_left hother power
    omega

/-- The first sixty-four primes. -/
def primes : List ℕ :=
  [2, 3, 5, 7, 11, 13, 17, 19, 23, 29, 31, 37, 41, 43, 47, 53, 59, 61, 67, 71, 73, 79, 83, 89, 97,
    101, 103, 107, 109, 113, 127, 131, 137, 139, 149, 151, 157, 163, 167, 173, 179, 181, 191, 193,
    197, 199, 211, 223, 227, 229, 233, 239, 241, 251, 257, 263, 269, 271, 277, 281, 283, 293, 307,
    311]

/-- The first 32 bits of the fractional part of a root. -/
def rootBits (power number : ℕ) : Word :=
  BitVec.ofNat 32 (root power (number * 2 ^ (32 * power)))

/-- The constant of a round, of the cube root of a prime. -/
def roundConstant (round : ℕ) : Word :=
  rootBits 3 (primes.getD round 0)

/-! ### The hash -/

/-- The eight words of a hash. -/
structure Hash where
  a : Word
  b : Word
  c : Word
  d : Word
  e : Word
  f : Word
  g : Word
  h : Word

namespace Hash

/-- The initial hash, of the square roots of the first eight primes. -/
def initial : Hash where
  a := rootBits 2 2
  b := rootBits 2 3
  c := rootBits 2 5
  d := rootBits 2 7
  e := rootBits 2 11
  f := rootBits 2 13
  g := rootBits 2 17
  h := rootBits 2 19

def add (hash hash' : Hash) : Hash where
  a := hash.a + hash'.a
  b := hash.b + hash'.b
  c := hash.c + hash'.c
  d := hash.d + hash'.d
  e := hash.e + hash'.e
  f := hash.f + hash'.f
  g := hash.g + hash'.g
  h := hash.h + hash'.h

/-- A round. -/
def round (hash : Hash) (constant word : Word) : Hash :=
  let temporary1 :=
    hash.h + Word.upperSigma1 hash.e + Word.ch hash.e hash.f hash.g + constant + word
  let temporary2 := Word.upperSigma0 hash.a + Word.maj hash.a hash.b hash.c
  { a := temporary1 + temporary2
    b := hash.a
    c := hash.b
    d := hash.c
    e := hash.d + temporary1
    f := hash.e
    g := hash.f
    h := hash.g }

def bytes (hash : Hash) : List UInt8 :=
  [hash.a, hash.b, hash.c, hash.d, hash.e, hash.f, hash.g, hash.h].flatMap fun word =>
    bigEndianBytes 4 word.toNat

end Hash

/-- The message schedule of a block. -/
def schedule (block : List UInt8) (round : ℕ) : Word :=
  if round < 16 then BitVec.ofNat 32 (bigEndian ((block.drop (4 * round)).take 4))
  else
    Word.lowerSigma1 (schedule block (round - 2)) + schedule block (round - 7) +
      Word.lowerSigma0 (schedule block (round - 15)) + schedule block (round - 16)
termination_by round

/-- What a block makes of a hash. -/
def compress (hash : Hash) (block : List UInt8) : Hash :=
  hash.add ((List.range 64).foldl
    (fun hash round => hash.round (roundConstant round) (schedule block round)) hash)

theorem exists_zeros (length : ℕ) :
  ∃ zeros, (length + 1 + zeros + 8) % 64 = 0
  := ⟨(119 - length % 64) % 64, by omega⟩

/-- The padding of a message: a one bit, the least number of zeros, and the length in bits. -/
def pad (message : List UInt8) : List UInt8 :=
  message ++ [0x80] ++ List.replicate (Nat.find (exists_zeros message.length)) 0 ++
    bigEndianBytes 8 (8 * message.length)

/-- The blocks of a padded message. -/
def blocks (padded : List UInt8) : List (List UInt8) :=
  (List.range (padded.length / 64)).map fun index => (padded.drop (64 * index)).take 64

/-- The blocks of whole blocks come before those of what follows. -/
theorem blocks_append {whole rest : List UInt8} {count : ℕ} (h : whole.length = 64 * count) :
  blocks (whole ++ rest) = blocks whole ++ blocks rest
  := by
  have hwhole : whole.length / 64 = count := by omega
  have hlength : (whole ++ rest).length / 64 = count + rest.length / 64 := by
    rw [length_append]
    omega
  rw [blocks, hlength, range_add, map_append, blocks, hwhole, blocks, map_map]
  congr 1
  · apply map_congr_left
    intro index hindex
    have hlt := mem_range.mp hindex
    rw [drop_append_of_le_length (by omega), take_append_of_le_length]
    rw [length_drop]
    omega
  · apply map_congr_left
    intro index _
    rw [Function.comp_apply, Nat.mul_add, ← h, drop_length_add_append]

theorem blocks_of_lt {rest : List UInt8} (h : rest.length < 64) :
  blocks rest = []
  := by
  rw [blocks, Nat.div_eq_of_lt h]
  rfl

theorem length_of_mem_blocks {bytes block : List UInt8} (h : block ∈ blocks bytes) :
  block.length = 64
  := by
  obtain ⟨index, hindex, rfl⟩ := mem_map.mp h
  have hlt := mem_range.mp hindex
  rw [length_take, length_drop]
  omega

def sha256 (message : List UInt8) : List UInt8 :=
  ((blocks (pad message)).foldl compress Hash.initial).bytes

/-! ### Authentication codes -/

/-- A key as long as a block: a longer one is hashed, and what is missing is zero. -/
def blockKey (hash : List UInt8 → List UInt8) (block : ℕ) (key : List UInt8) : List UInt8 :=
  let short := if block < key.length then hash key else key
  short ++ List.replicate (block - short.length) 0

/-- The code of a message under a key. -/
def hmac (hash : List UInt8 → List UInt8) (block : ℕ) (key message : List UInt8) : List UInt8 :=
  let key := blockKey hash block key
  hash (key.map (· ^^^ 0x5c) ++ hash (key.map (· ^^^ 0x36) ++ message))

end HashStandards
