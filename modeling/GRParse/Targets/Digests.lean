import GRParse.Lib.HashStandards
import GRParse.Targets.Sha256
import Mathlib.Tactic.NormNum

/-!
# Digests are those of the standards

The words of the code are those of FIPS 180-4, and so are the schedule of a block, its rounds and
the padding.  The keyed digest, whose pads are written over blocks of zeros, is the one of RFC 2104.
-/

namespace GRParse.Digest

open HashStandards List Nat

/-! ### Words -/

theorem bigEndian_four (first second third fourth : UInt8) :
  bigEndian [first, second, third, fourth] =
    ((first.toNat * 256 + second.toNat) * 256 + third.toNat) * 256 + fourth.toNat
  := by
  simp [bigEndian]

/-- Bytes that are put beside each other are the number that they spell. -/
theorem toNat_beside (first second third fourth : UInt8) :
  (first.toUInt32 <<< 24 ||| second.toUInt32 <<< 16 ||| third.toUInt32 <<< 8 |||
    fourth.toUInt32).toNat = bigEndian [first, second, third, fourth]
  := by
  have hfirst := first.toNat_lt
  have hsecond := second.toNat_lt
  have hthird := third.toNat_lt
  have hfourth := fourth.toNat_lt
  rw [bigEndian_four]
  simp only [UInt32.toNat_or, UInt32.toNat_shiftLeft, UInt8.toNat_toUInt32, UInt32.reduceToNat,
    reduceMod]
  rw [mod_eq_of_lt (by rw [shiftLeft_eq]; omega),
    mod_eq_of_lt (by rw [shiftLeft_eq]; omega),
    mod_eq_of_lt (by rw [shiftLeft_eq]; omega)]
  have hbyte : ∀ {value byte : ℕ}, byte < 256 → value <<< 8 ||| byte = value * 256 + byte := by
    intro value byte hbyte
    rw [← shiftLeft_add_eq_or_of_lt hbyte, shiftLeft_eq]
  rw [← hbyte hfourth, ← hbyte hthird, ← hbyte hsecond]
  simp only [shiftLeft_or_distrib, ← shiftLeft_add]

/-- Four bytes are read as the word that they spell. -/
theorem toBitVec_readBe32 {bytes : List UInt8} {offset : ℕ} (h : offset + 4 ≤ bytes.length) :
  (readBe32 bytes offset).toBitVec = BitVec.ofNat 32 (bigEndian ((bytes.drop offset).take 4))
  := by
  rw [drop_eq_getElem_cons (by omega), drop_eq_getElem_cons (by omega),
    drop_eq_getElem_cons (by omega), drop_eq_getElem_cons (by omega)]
  simp only [take_succ_cons, take_zero]
  rw [← toNat_beside, BitVec.ofNat_uInt32ToNat]
  simp only [readBe32, getD_eq_getElem?_getD]
  rw [getElem?_eq_getElem (i := offset + 0) (by omega),
    getElem?_eq_getElem (i := offset + 1) (by omega),
    getElem?_eq_getElem (i := offset + 2) (by omega),
    getElem?_eq_getElem (i := offset + 3) (by omega)]
  rfl

/-- A word is written as its bytes. -/
theorem writeBe32_eq (value : UInt32) :
  writeBe32 value = bigEndianBytes 4 value.toNat
  := by
  have hbytes : bigEndianBytes 4 value.toNat =
      [UInt8.ofNat (value.toNat / 256 ^ 3), UInt8.ofNat (value.toNat / 256 ^ 2),
        UInt8.ofNat (value.toNat / 256 ^ 1), UInt8.ofNat (value.toNat / 256 ^ 0)] := rfl
  have hthree : (value >>> 24).toUInt8 = UInt8.ofNat (value.toNat / 256 ^ 3) := by
    apply UInt8.toNat_inj.mp
    simp [shiftRight_eq_div_pow]
  have htwo : (value >>> 16).toUInt8 = UInt8.ofNat (value.toNat / 256 ^ 2) := by
    apply UInt8.toNat_inj.mp
    simp [shiftRight_eq_div_pow]
  have hone : (value >>> 8).toUInt8 = UInt8.ofNat (value.toNat / 256 ^ 1) := by
    apply UInt8.toNat_inj.mp
    simp [shiftRight_eq_div_pow]
  have hzero : value.toUInt8 = UInt8.ofNat (value.toNat / 256 ^ 0) := by
    apply UInt8.toNat_inj.mp
    simp
  rw [hbytes, writeBe32, hthree, htwo, hone, hzero]

/-- The words of a state. -/
def State.toHash (state : State) : Hash where
  a := state.a.toBitVec
  b := state.b.toBitVec
  c := state.c.toBitVec
  d := state.d.toBitVec
  e := state.e.toBitVec
  f := state.f.toBitVec
  g := state.g.toBitVec
  h := state.h.toBitVec

theorem toHash_round (state : State) (constant word : UInt32) :
  (round state constant word).toHash = state.toHash.round constant.toBitVec word.toBitVec
  := rfl

theorem bytes_toHash (state : State) :
  state.words.flatMap writeBe32 = state.toHash.bytes
  := by
  simp only [State.words, Hash.bytes, flatMap_cons, flatMap_nil, writeBe32_eq]
  rfl

/-! ### Constants -/

/-- Whether the fractional part of a root begins with some bits behind a whole part. -/
def IsRootBits (power prime whole bits : ℕ) : Prop :=
  (whole * 2 ^ 32 + bits) ^ power ≤ prime * 2 ^ (32 * power) ∧
    prime * 2 ^ (32 * power) < (whole * 2 ^ 32 + bits + 1) ^ power

instance (power prime whole bits : ℕ) : Decidable (IsRootBits power prime whole bits) :=
  inferInstanceAs (Decidable (_ ∧ _))

theorem IsRootBits.rootBits_eq {power prime whole : ℕ} {bits : UInt32} (hpower : power ≠ 0)
    (h : IsRootBits power prime whole bits.toNat) :
  rootBits power prime = bits.toBitVec
  := by
  rw [rootBits, root_eq hpower h.1 h.2, BitVec.ofNat_add, BitVec.ofNat_mul]
  simp

/-- The constants of the rounds are the fractional parts of the cube roots of the primes. -/
theorem roundConstants_isRootBits :
  (List.range 64).all fun index => (List.range 7).any fun whole =>
    decide (IsRootBits 3 (primes.getD index 0) whole (kRoundConstants.getD index 0).toNat)
  := rfl

theorem roundConstant_eq {index : ℕ} (h : index < 64) :
  roundConstant index = (kRoundConstants.getD index 0).toBitVec
  := by
  obtain ⟨whole, _, hbits⟩ := any_eq_true.mp
    (all_eq_true.mp roundConstants_isRootBits index (mem_range.mpr h))
  exact (of_decide_eq_true hbits).rootBits_eq (by decide)

/-- The initial words are the fractional parts of the square roots of the primes. -/
theorem toHash_initialState :
  initialState.toHash = Hash.initial
  := by
  have hbits : ∀ {prime : ℕ} {bits : UInt32} (whole : ℕ), IsRootBits 2 prime whole bits.toNat →
      rootBits 2 prime = bits.toBitVec := fun whole h => h.rootBits_eq (by decide)
  have ha : rootBits 2 2 = initialState.a.toBitVec := hbits 1 (by decide)
  have hb : rootBits 2 3 = initialState.b.toBitVec := hbits 1 (by decide)
  have hc : rootBits 2 5 = initialState.c.toBitVec := hbits 2 (by decide)
  have hd : rootBits 2 7 = initialState.d.toBitVec := hbits 2 (by decide)
  have he : rootBits 2 11 = initialState.e.toBitVec := hbits 3 (by decide)
  have hf : rootBits 2 13 = initialState.f.toBitVec := hbits 3 (by decide)
  have hg : rootBits 2 17 = initialState.g.toBitVec := hbits 4 (by decide)
  have hh : rootBits 2 19 = initialState.h.toBitVec := hbits 4 (by decide)
  rw [Hash.initial, ha, hb, hc, hd, he, hf, hg, hh, State.toHash]

/-! ### Blocks -/

variable {block : List UInt8}

theorem toBitVec_nextWord {words : List UInt32} {length : ℕ} (hlength : 16 ≤ length)
    (h : words.map UInt32.toBitVec = (List.range length).map (HashStandards.schedule block)) :
  (nextWord words).toBitVec = HashStandards.schedule block length
  := by
  have hwords : words.length = length := by
    have heq := congrArg List.length h
    rwa [List.length_map, List.length_map, List.length_range] at heq
  have hword : ∀ back, 0 < back → back ≤ 16 → (words.getD (words.length - back) 0).toBitVec =
      HashStandards.schedule block (length - back) := by
    intro back hpos hback
    have hlt : length - back < (List.range length).length := by
      rw [List.length_range]
      omega
    have heq := congrArg (fun list => list[length - back]?) h
    simp only [List.getElem?_map, List.getElem?_eq_getElem hlt, List.getElem_range,
      Option.map_some, Option.map_eq_some_iff] at heq
    obtain ⟨word, hget, heq⟩ := heq
    rw [hwords, List.getD_eq_getElem?_getD, hget, Option.getD_some, heq]
  have hnext : (nextWord words).toBitVec =
      (words.getD (words.length - 16) 0).toBitVec +
        Word.lowerSigma0 (words.getD (words.length - 15) 0).toBitVec +
        (words.getD (words.length - 7) 0).toBitVec +
        Word.lowerSigma1 (words.getD (words.length - 2) 0).toBitVec := rfl
  rw [HashStandards.schedule, if_neg (by omega), hnext, hword 2 (by decide) (by decide),
    hword 7 (by decide) (by decide), hword 15 (by decide) (by decide),
    hword 16 (by decide) (by decide)]
  ac_rfl

/-- The words of the schedule, as far as they are there. -/
theorem toBitVec_schedule_aux (h : block.length = 64) (count : ℕ) :
  ((List.range count).foldl (fun words _ => words ++ [nextWord words])
    ((List.range 16).map fun index => readBe32 block (4 * index))).map UInt32.toBitVec =
      (List.range (16 + count)).map (HashStandards.schedule block)
  := by
  induction count with
  | zero =>
    rw [range_zero, foldl_nil, map_map]
    apply map_congr_left
    intro index hindex
    have hlt := mem_range.mp hindex
    rw [HashStandards.schedule, if_pos hlt, Function.comp_apply, toBitVec_readBe32 (by omega)]
  | succ count ih =>
    rw [@range_succ count, foldl_concat, map_append, ih, ← add_assoc,
      @range_succ (16 + count), map_append, map_singleton, map_singleton,
      toBitVec_nextWord (by omega) ih]

theorem toBitVec_schedule (h : block.length = 64) :
  (schedule block).map UInt32.toBitVec = (List.range 64).map (HashStandards.schedule block)
  := toBitVec_schedule_aux h 48

theorem toBitVec_roundConstants :
  kRoundConstants.map UInt32.toBitVec = (List.range 64).map roundConstant
  := by
  have hconstants : kRoundConstants = (range 64).map fun index =>
      kRoundConstants.getD index 0 := rfl
  rw [hconstants, map_map]
  apply map_congr_left
  intro index hindex
  rw [Function.comp_apply, roundConstant_eq (mem_range.mp hindex)]

/-- The constants and words of the rounds are those of the standard. -/
theorem zip_schedule (h : block.length = 64) :
  (kRoundConstants.zip (schedule block)).map (Prod.map UInt32.toBitVec UInt32.toBitVec) =
    (List.range 64).map fun index => (roundConstant index, HashStandards.schedule block index)
  := by
  rw [← zip_map, toBitVec_roundConstants, toBitVec_schedule h, zip_map']

theorem toHash_rounds (rounds : List (UInt32 × UInt32)) (state : State) :
  (rounds.foldl (fun state (constant, word) => round state constant word) state).toHash =
    (rounds.map (Prod.map UInt32.toBitVec UInt32.toBitVec)).foldl
      (fun hash (constant, word) => hash.round constant word) state.toHash
  := by
  induction rounds generalizing state with
  | nil => rfl
  | cons step rounds ih =>
    obtain ⟨constant, word⟩ := step
    rw [foldl_cons, ih, toHash_round, map_cons, foldl_cons]
    rfl

theorem toHash_add (state mixed : State) :
  State.toHash ⟨state.a + mixed.a, state.b + mixed.b, state.c + mixed.c, state.d + mixed.d,
    state.e + mixed.e, state.f + mixed.f, state.g + mixed.g, state.h + mixed.h⟩ =
      state.toHash.add mixed.toHash
  := rfl

/-- A block changes the words as in the standard. -/
theorem toHash_compress {state : State} (h : block.length = 64) :
  (compress state block).toHash = HashStandards.compress state.toHash block
  := by
  rw [compress, toHash_add, toHash_rounds, zip_schedule h, foldl_map, HashStandards.compress]

theorem toHash_compressBlocks (state : State) (bytes : List UInt8) :
  (compressBlocks state bytes).toHash =
    (blocks bytes).foldl HashStandards.compress state.toHash
  := by
  have hblocks : compressBlocks state bytes = (blocks bytes).foldl compress state := by
    rw [blocks, foldl_map, compressBlocks]
    unfold kBlockBytes
    rfl
  have hsteps : ∀ (blocks : List (List UInt8)) (state : State),
      (∀ block ∈ blocks, block.length = 64) →
      (blocks.foldl compress state).toHash =
        blocks.foldl HashStandards.compress state.toHash := by
    intro blocks
    induction blocks with
    | nil => exact fun _ _ => rfl
    | cons block blocks ih =>
      intro state hlength
      obtain ⟨hblock, hlength⟩ := forall_mem_cons.mp hlength
      rw [foldl_cons, foldl_cons, ih _ hlength, toHash_compress hblock]
  rw [hblocks, hsteps _ _ fun block => length_of_mem_blocks]

/-! ### Padding -/

/-- The length in bits, in two words. -/
theorem writeBe32_bits (length : ℕ) :
  writeBe32 (UInt64.ofNat (length * 8) >>> 32).toUInt32 ++
    writeBe32 (UInt64.ofNat (length * 8)).toUInt32 = bigEndianBytes 8 (8 * length)
  := by
  have hhigh : (UInt64.ofNat (length * 8) >>> 32).toUInt32.toNat =
      8 * length % 2 ^ 64 / 2 ^ 32 % 2 ^ 32 := by
    simp [shiftRight_eq_div_pow, mul_comm]
  have hlow : (UInt64.ofNat (length * 8)).toUInt32.toNat = 8 * length % 2 ^ 64 % 2 ^ 32 := by
    simp [mul_comm]
  have hpow : (2 : ℕ) ^ 32 = 256 ^ 4 := by norm_num
  have hmods : 8 * length % 2 ^ 64 / 2 ^ 32 % 2 ^ 32 = 8 * length / 2 ^ 32 % 2 ^ 32 ∧
      8 * length % 2 ^ 64 % 2 ^ 32 = 8 * length % 2 ^ 32 := by omega
  rw [writeBe32_eq, writeBe32_eq, hhigh, hlow, hmods.1, hmods.2, hpow, bigEndianBytes_mod,
    bigEndianBytes_mod, ← bigEndianBytes_add]

/-- The number of zeros behind a remainder is the least that fills up a block. -/
theorem find_zeros (data : List UInt8) :
  let remainder := data.drop (kBlockBytes * (data.length / kBlockBytes))
  let tailBlocks := if remainder.length + 1 + 8 > kBlockBytes then 2 else 1
  Nat.find (exists_zeros data.length) = tailBlocks * kBlockBytes - 8 - (remainder.length + 1)
  := by
  simp only [length_drop, kBlockBytes]
  apply (find_eq_iff _).mpr
  constructor
  · split <;> omega
  · intro zeros hzeros
    split at hzeros <;> omega

/-- The whole blocks of a message and the blocks of its tail are those of the padded message. -/
theorem blocks_pad (data : List UInt8) :
  blocks (pad data) = blocks data ++ blocks (tail data)
  := by
  have hlength : (data.take (64 * (data.length / 64))).length = 64 * (data.length / 64) := by
    rw [length_take]
    omega
  have hpad : pad data = data.take (64 * (data.length / 64)) ++ tail data := by
    have hdata := take_append_drop (64 * (data.length / 64)) data
    have hzeros := find_zeros data
    simp only at hzeros
    rw [pad, tail, hzeros, append_assoc _ (writeBe32 _), writeBe32_bits]
    simp only [← append_assoc, kBlockBytes]
    rw [hdata]
  have hrest : (data.drop (64 * (data.length / 64))).length < 64 := by
    rw [length_drop]
    omega
  have hwhole : blocks data = blocks (data.take (64 * (data.length / 64))) := by
    have heq : blocks (data.take (64 * (data.length / 64)) ++ data.drop (64 * (data.length / 64))) =
        _ := blocks_append hlength
    rwa [take_append_drop, blocks_of_lt hrest, append_nil] at heq
  rw [hpad, blocks_append hlength, hwhole]

theorem sha256_eq (data : List UInt8) :
  sha256 data = HashStandards.sha256 data
  := by
  rw [sha256, bytes_toHash, toHash_compressBlocks, toHash_compressBlocks, toHash_initialState,
    ← foldl_append, ← blocks_pad, HashStandards.sha256]

/-! ### Keyed digests -/

/-- Bytes that are copied to the front of a block. -/
def copyTo (block bytes : List UInt8) : List UInt8 :=
  bytes ++ block.drop bytes.length

def hmacSha256 (key data : List UInt8) : List UInt8 :=
  let zeros := List.replicate kBlockBytes 0
  let block := if key.length > kBlockBytes then copyTo zeros (sha256 key) else copyTo zeros key
  let inner := (List.range kBlockBytes).map fun index => block.getD index 0 ^^^ 0x36
  let outer := (List.range kBlockBytes).map fun index => block.getD index 0 ^^^ 0x5c
  sha256 (outer ++ sha256 (inner ++ data))

theorem copyTo_zeros (bytes : List UInt8) :
  copyTo (List.replicate kBlockBytes 0) bytes =
    bytes ++ List.replicate (kBlockBytes - bytes.length) 0
  := by
  rw [copyTo, drop_replicate]

/-- What is done to every byte of a block. -/
theorem map_range_getD (block : List UInt8) (change : UInt8 → UInt8) :
  (List.range block.length).map (fun index => change (block.getD index 0)) = block.map change
  := by
  apply ext_getElem (by simp)
  intro index hleft hright
  rw [length_map] at hright
  simp [getElem?_eq_getElem hright]

/-- Digests and keyed digests are those of the standards. -/
theorem digests_standard :
  (∀ data : List UInt8, sha256 data = HashStandards.sha256 data) ∧
  ∀ key data : List UInt8,
    hmacSha256 key data = hmac HashStandards.sha256 kBlockBytes key data
  := by
  refine ⟨sha256_eq, fun key data => ?_⟩
  have hhash : sha256 = HashStandards.sha256 := funext sha256_eq
  have hblock : (if key.length > kBlockBytes then copyTo (List.replicate kBlockBytes 0) (sha256 key)
      else copyTo (List.replicate kBlockBytes 0) key) =
      blockKey HashStandards.sha256 kBlockBytes key := by
    rw [copyTo_zeros, copyTo_zeros, blockKey, hhash]
    split <;> rfl
  have hlength : (blockKey HashStandards.sha256 kBlockBytes key).length = kBlockBytes := by
    rw [blockKey, List.length_append, List.length_replicate]
    split
    case isTrue => rw [← sha256_eq, length_sha256]; rfl
    case isFalse hshort => omega
  rw [hmacSha256, hblock, hhash, hmac]
  have hmap := map_range_getD (blockKey HashStandards.sha256 kBlockBytes key)
  rw [hlength] at hmap
  simp only [hmap (· ^^^ 0x36), hmap (· ^^^ 0x5c)]

end GRParse.Digest
