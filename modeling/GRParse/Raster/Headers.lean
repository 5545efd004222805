import GRParse.Lib.LittleEndian
import Mathlib.Data.Finset.Card

/-!
# The headers of raster images

Before an image is decoded, its header tells how large it will be.  A page that is empty or has
more pixels than the service allows is refused.

A read outside of the bytes is `none`, next to a header that cannot be read, which is `some none`.
-/

namespace GRParse.Raster

open ByteReads

structure RasterDims where
  width : ℕ := 0
  height : ℕ := 0
  deriving DecidableEq

/-- A part of the bytes is a certain text, as `std::string::compare` tells. -/
def compare (bytes : List UInt8) (place : ℕ) (text : List UInt8) : Bool :=
  (bytes.drop place).take text.length = text

variable (bytes : List UInt8)

/-! ### PNG and JPEG -/

/-- The text `IHDR`. -/
def kHeaderChunk : List UInt8 := [0x49, 0x48, 0x44, 0x52]

def pngDims : Option (Option RasterDims) :=
  if bytes.length < 24 || !compare bytes 12 kHeaderChunk then some none
  else do
    let width ← readUint bytes 16 4 false
    let height ← readUint bytes 20 4 false
    return some { width, height }

/-- A marker without a segment. -/
def isStandalone (marker : UInt8) : Bool :=
  marker = 0x01 || marker = 0xd8 || (0xd0 ≤ marker && marker ≤ 0xd7)

def isStartOfFrame (marker : UInt8) : Bool :=
  0xc0 ≤ marker && marker ≤ 0xcf && marker ≠ 0xc4 && marker ≠ 0xc8 && marker ≠ 0xcc

/-- The loop of `jpeg_dims`. -/
def jpegFrom (place : ℕ) : Option (Option RasterDims) :=
  if _hinside : bytes.length < place + 4 then some none
  else
    bytes[place]?.bind fun first =>
      if first ≠ 0xff then some none
      else
        bytes[place + 1]?.bind fun marker =>
          if marker = 0xff then jpegFrom (place + 1)
          else if isStandalone marker then jpegFrom (place + 2)
          else if marker = 0xd9 || marker = 0xda then some none
          else
            (readUint bytes (place + 2) 2 false).bind fun length =>
              if length < 2 then some none
              else if isStartOfFrame marker then
                if bytes.length < place + 2 + 7 then some none
                else do
                  let width ← readUint bytes (place + 2 + 5) 2 false
                  let height ← readUint bytes (place + 2 + 3) 2 false
                  return some { width, height }
              else jpegFrom (place + 2 + length)
termination_by bytes.length - place

def jpegDims : Option (Option RasterDims) :=
  jpegFrom bytes 2

/-! ### TIFF -/

/-- A tag of a directory that tells the size of its page. -/
def RasterDims.set (dims : RasterDims) (tag value : ℕ) : RasterDims :=
  if tag = 256 then { dims with width := value } else { dims with height := value }

variable (little : Bool)

/-- The loop of `tiff_dims` over the entries of a directory.  The offset is added to in 32 bits. -/
def directoryFrom (offset : ℕ) : List ℕ → RasterDims → Option (Option RasterDims)
  | [], dims => some (some dims)
  | index :: indices, dims =>
    let entry := (offset + 2) % 2 ^ 32 + 12 * index
    (readUint bytes entry 2 little).bind fun tag =>
      if tag ≠ 256 ∧ tag ≠ 257 then directoryFrom offset indices dims
      else
        (readUint bytes (entry + 2) 2 little).bind fun type =>
          if type = 3 then
            (readUint bytes (entry + 8) 2 little).bind fun value =>
              directoryFrom offset indices (dims.set tag value)
          else if type = 4 then
            (readUint bytes (entry + 8) 4 little).bind fun value =>
              directoryFrom offset indices (dims.set tag value)
          else some none

/-- The loop of `tiff_dims` over the directories. -/
def tiffFrom (visited : Finset ℕ) (pages : List RasterDims) (offset : ℕ) :
    Option (Option (List RasterDims)) :=
  if offset = 0 then some (if pages = [] then none else some pages)
  else if _hvisited : offset ∈ visited then some none
  else if _hinside : bytes.length < offset + 2 then some none
  else
    (readUint bytes offset 2 little).bind fun entries =>
      let stop := offset + 2 + 12 * entries
      if bytes.length < stop + 4 then some none
      else
        (directoryFrom bytes little offset (List.range entries) {}).bind fun dims =>
          match dims with
          | none => some none
          | some dims =>
            (readUint bytes stop 4 little).bind fun next =>
              tiffFrom (insert offset visited) (pages ++ [dims]) next
termination_by (Finset.range bytes.length \ visited).card
decreasing_by
  have hmem : offset ∈ Finset.range bytes.length \ visited :=
    Finset.mem_sdiff.mpr ⟨Finset.mem_range.mpr (by omega), _hvisited⟩
  rw [Finset.sdiff_insert]
  exact Finset.card_erase_lt_of_mem hmem

def tiffDims : Option (Option (List RasterDims)) :=
  if bytes.length < 8 then some none
  else
    bytes[0]?.bind fun order =>
      let little : Bool := order = 0x49
      (readUint bytes 4 4 little).bind fun offset => tiffFrom bytes little ∅ [] offset

/-! ### The cap -/

def kTiffLittle : List UInt8 := [0x49, 0x49, 0x2a, 0x00]
def kTiffBig : List UInt8 := [0x4d, 0x4d, 0x00, 0x2a]
def kPng : List UInt8 := [0x89, 0x50, 0x4e, 0x47, 0x0d, 0x0a, 0x1a, 0x0a]
def kJpeg : List UInt8 := [0xff, 0xd8, 0xff]
/-- The texts `GIF87a` and `GIF89a`. -/
def kGif87 : List UInt8 := [0x47, 0x49, 0x46, 0x38, 0x37, 0x61]
def kGif89 : List UInt8 := [0x47, 0x49, 0x46, 0x38, 0x39, 0x61]
/-- The text `BM`. -/
def kBmp : List UInt8 := [0x42, 0x4d]
/-- The texts `RIFF` and `WEBP`, and those of the chunks behind them. -/
def kRiff : List UInt8 := [0x52, 0x49, 0x46, 0x46]
def kWebp : List UInt8 := [0x57, 0x45, 0x42, 0x50]
def kVp8x : List UInt8 := [0x56, 0x50, 0x38, 0x58]
def kVp8 : List UInt8 := [0x56, 0x50, 0x38, 0x20]
def kVp8l : List UInt8 := [0x56, 0x50, 0x38, 0x4c]

def isTiff : Bool :=
  4 ≤ bytes.length && (compare bytes 0 kTiffLittle || compare bytes 0 kTiffBig)

/-- The logical screen of a GIF. -/
def gifDims : Option (Option RasterDims) := do
  let width ← readUint bytes 6 2 true
  let height ← readUint bytes 8 2 true
  return some { width, height }

/-- The absolute value of a number read as an `int32_t`. -/
def absolute (value : ℕ) : ℕ :=
  ((value : ℤ).bmod (2 ^ 32)).natAbs

def bmpDims : Option (Option RasterDims) := do
  let width ← readUint bytes 18 4 true
  let height ← readUint bytes 22 4 true
  return some { width := absolute width, height := absolute height }

def webpDims : Option (Option RasterDims) :=
  if compare bytes 12 kVp8x then do
    let width ← readUint bytes 24 3 true
    let height ← readUint bytes 27 3 true
    return some { width := width + 1, height := height + 1 }
  else if compare bytes 12 kVp8 then do
    let width ← readUint bytes 26 2 true
    let height ← readUint bytes 28 2 true
    return some { width := width % 0x4000, height := height % 0x4000 }
  else if compare bytes 12 kVp8l then do
    let bits ← readUint bytes 21 4 true
    return some { width := bits % 0x4000 + 1, height := bits / 2 ^ 14 % 0x4000 + 1 }
  else some none

/-- An image of a single page. -/
def single (dims : Option (Option RasterDims)) : Option (Option (List RasterDims)) :=
  dims.map fun dims => dims.map fun dims => [dims]

/-- The pages that `encoded_image_within_pixel_cap` finds. -/
def imagePages : Option (Option (List RasterDims)) :=
  if isTiff bytes then tiffDims bytes
  else if 8 ≤ bytes.length && compare bytes 0 kPng then single (pngDims bytes)
  else if 3 ≤ bytes.length && compare bytes 0 kJpeg then single (jpegDims bytes)
  else if 10 ≤ bytes.length && (compare bytes 0 kGif87 || compare bytes 0 kGif89) then
    single (gifDims bytes)
  else if 26 ≤ bytes.length && compare bytes 0 kBmp then single (bmpDims bytes)
  else if 30 ≤ bytes.length && compare bytes 0 kRiff && compare bytes 8 kWebp then
    single (webpDims bytes)
  else some none

variable (limit : ℕ)

/-- Whether a page is neither empty nor too large; the product is taken in 64 bits. -/
def withinCap (dims : RasterDims) : Bool :=
  dims.width ≠ 0 && dims.height ≠ 0 && dims.width * dims.height % 2 ^ 64 ≤ limit

/-- `encoded_image_within_pixel_cap`. -/
def encodedImageWithinPixelCap : Option Bool :=
  (imagePages bytes).map fun pages =>
    match pages with
    | none => false
    | some pages => pages.all (withinCap limit)

/-! ### The source of pages -/

/-- `is_supported_raster`. -/
def isSupportedRaster : Bool :=
  [kPng, kJpeg, kTiffLittle, kTiffBig].any fun magic => magic.isPrefixOf bytes

/-- The pages that `RasterPageSource` finds. -/
def rasterPages : Option (Option (List RasterDims)) :=
  if isTiff bytes then tiffDims bytes
  else
    bytes[0]?.bind fun first =>
      single (if first = 0x89 then pngDims bytes else jpegDims bytes)

/-- Why a page is refused. -/
def pageError (dims : RasterDims) : Option String :=
  if dims.width = 0 ∨ dims.height = 0 then some "Raster image header states an empty page"
  else if limit < dims.width * dims.height % 2 ^ 64 then
    some ("Raster image page of " ++ toString dims.width ++ "x" ++ toString dims.height ++
      " pixels exceeds GRPARSE_MAX_IMAGE_PIXELS (" ++ toString limit ++ ")")
  else none

def kMaxRasterPages : ℕ := 4096

/-- The constructor of `RasterPageSource`: how many pages there are. -/
def rasterPageCount : Option (Except String ℕ) :=
  if 2147483647 < bytes.length then
    some (.error "Raster image exceeds the in-memory decode limit")
  else if !isSupportedRaster bytes then
    some (.error "Raster image is not a supported format (PNG, JPEG, or TIFF)")
  else
    (rasterPages bytes).map fun pages =>
      match pages with
      | none => .error "Raster image header could not be read"
      | some pages =>
        match pages.findSome? (pageError limit) with
        | some message => .error message
        | none =>
          if kMaxRasterPages < pages.length then
            .error ("Raster image has more than " ++ toString kMaxRasterPages ++ " pages")
          else .ok pages.length

/-! ### Numbers that are read -/

variable {bytes limit little}

/-- A page whose size is stated in 32 bits. -/
def RasterDims.Bounded (dims : RasterDims) : Prop :=
  dims.width < 2 ^ 32 ∧ dims.height < 2 ^ 32

theorem numberAt_lt_of_le {place width : ℕ} (h : width ≤ 4) :
  numberAt bytes place width little < 2 ^ 32
  := by
  have hpow : (256 : ℕ) ^ 4 = 2 ^ 32 := by norm_num
  have hlt : numberAt bytes place width little < 256 ^ 4 :=
    numberAt_lt.trans_le (Nat.pow_le_pow_right (by decide) h)
  rwa [hpow] at hlt

/-- A reader of a header stays inside the bytes, and what it reads is bounded. -/
def ReadsSafely (dims : Option (Option RasterDims)) : Prop :=
  ∃ read, dims = some read ∧ ∀ dims ∈ read, dims.Bounded

theorem readsSafely_none :
  ReadsSafely (some none)
  := ⟨none, rfl, fun _ hmem => nomatch hmem⟩

theorem readsSafely_some {width height : ℕ} (hwidth : width < 2 ^ 32) (hheight : height < 2 ^ 32) :
  ReadsSafely (some (some { width, height }))
  := by
  refine ⟨some { width, height }, rfl, ?_⟩
  rintro _ ⟨⟩
  exact And.intro hwidth hheight

theorem readsSafely_pngDims :
  ReadsSafely (pngDims bytes)
  := by
  rw [pngDims]
  split
  case isTrue => exact readsSafely_none
  case isFalse h =>
    have hlength : 24 ≤ bytes.length := by
      simp only [Bool.or_eq_true, decide_eq_true_eq, not_or, not_lt] at h
      exact h.1
    rw [readUint_eq (by omega), readUint_eq (by omega)]
    exact readsSafely_some (numberAt_lt_of_le le_rfl) (numberAt_lt_of_le le_rfl)

theorem readsSafely_gifDims (h : 10 ≤ bytes.length) :
  ReadsSafely (gifDims bytes)
  := by
  rw [gifDims, readUint_eq (by omega), readUint_eq (by omega)]
  exact readsSafely_some (numberAt_lt_of_le (by decide)) (numberAt_lt_of_le (by decide))

theorem natAbs_bmod_lt (value : ℤ) {modulus : ℕ} (h : 0 < modulus) :
  (value.bmod modulus).natAbs < modulus
  := by
  have hlower := Int.le_bmod (x := value) h
  have hupper := Int.bmod_lt (x := value) h
  omega

theorem absolute_lt (value : ℕ) :
  absolute value < 2 ^ 32
  := natAbs_bmod_lt _ (Nat.two_pow_pos 32)

theorem readsSafely_bmpDims (h : 26 ≤ bytes.length) :
  ReadsSafely (bmpDims bytes)
  := by
  have hwidth := absolute_lt (numberAt bytes 18 4 true)
  have hheight := absolute_lt (numberAt bytes 22 4 true)
  rw [bmpDims, readUint_eq (by omega), readUint_eq (by omega)]
  exact readsSafely_some hwidth hheight

theorem readsSafely_webpDims (h : 30 ≤ bytes.length) :
  ReadsSafely (webpDims bytes)
  := by
  have hthree : ∀ place, numberAt bytes place 3 true + 1 < 2 ^ 32 := by
    intro place
    have hlt := @numberAt_lt bytes place 3 true
    omega
  rw [webpDims, readUint_eq (by omega), readUint_eq (by omega), readUint_eq (by omega),
    readUint_eq (by omega), readUint_eq (by omega)]
  split_ifs
  · exact readsSafely_some (hthree _) (hthree _)
  · apply readsSafely_some
    all_goals omega
  · apply readsSafely_some
    all_goals omega
  · exact readsSafely_none

theorem readsSafely_jpegFrom (place : ℕ) :
  ReadsSafely (jpegFrom bytes place)
  := by
  induction hleft : bytes.length - place using Nat.strong_induction_on generalizing place with
  | _ left ih =>
    rw [jpegFrom]
    by_cases hinside : bytes.length < place + 4
    · rw [dif_pos hinside]
      exact readsSafely_none
    · rw [dif_neg hinside, List.getElem?_eq_getElem (by omega), List.getElem?_eq_getElem (by omega),
        readUint_eq (by omega)]
      simp only [Option.bind_some]
      split_ifs with hfirst hfill hstandalone hend hlength hframe hseven
      · exact readsSafely_none
      · exact ih _ (by omega) _ rfl
      · exact ih _ (by omega) _ rfl
      · exact readsSafely_none
      · exact readsSafely_none
      · exact readsSafely_none
      · rw [readUint_eq (by omega), readUint_eq (by omega)]
        exact readsSafely_some (numberAt_lt_of_le (by decide)) (numberAt_lt_of_le (by decide))
      · exact ih _ (by omega) _ rfl

end GRParse.Raster
