import GRParse.Lib.LinkedChain
import GRParse.Raster.Headers
import Mathlib.Data.Bool.AllAny

/-!
# The directories of a TIFF

A TIFF has its pages in a chain of directories, each of which tells where the next one is, the last
one telling zero.  An entry of a directory has a tag, a type and a value, and two of the tags are
the width and the height of the page.

The walk over the directories reads a page from every directory of the chain, the sizes of a page
being those that its directory states last.  A file without a directory is refused.
-/

namespace GRParse.Raster

open ByteReads LinkedChain List Option

/-! ### Directories -/

structure DirectoryEntry where
  tag : ℕ
  type : ℕ
  value : ℕ
  deriving DecidableEq

/-- A tag of a size has the type `SHORT` or `LONG`. -/
def DirectoryEntry.Typed (entry : DirectoryEntry) : Prop :=
  entry.tag = 256 ∨ entry.tag = 257 → entry.type = 3 ∨ entry.type = 4

instance (entry : DirectoryEntry) : Decidable entry.Typed :=
  inferInstanceAs (Decidable (_ → _))

/-- The value that entries state last for a tag. -/
def lastStated (tag : ℕ) (entries : List DirectoryEntry) (unstated : ℕ) : ℕ :=
  ((entries.filter fun entry => entry.tag = tag).getLast?.map (·.value)).getD unstated

theorem lastStated_cons (tag : ℕ) (entry : DirectoryEntry) (entries : List DirectoryEntry)
    (unstated : ℕ) :
  lastStated tag (entry :: entries) unstated =
    lastStated tag entries (if entry.tag = tag then entry.value else unstated)
  := by
  unfold lastStated
  by_cases htag : entry.tag = tag
  · rw [filter_cons_of_pos (by simpa using htag), getLast?_cons, if_pos htag]
    cases (entries.filter fun entry => entry.tag = tag).getLast? <;> rfl
  · rw [filter_cons_of_neg (by simpa using htag), if_neg htag]

/-- A page as the entries of its directory state it. -/
def pageOf (entries : List DirectoryEntry) : RasterDims where
  width := lastStated 256 entries 0
  height := lastStated 257 entries 0

variable (bytes : List UInt8) (little : Bool)

/-- An entry, whose value takes two bytes if it is a `SHORT`. -/
def entryAt (place : ℕ) : DirectoryEntry :=
  let type := numberAt bytes (place + 2) 2 little
  { tag := numberAt bytes place 2 little
    type
    value := numberAt bytes (place + 8) (if type = 3 then 2 else 4) little }

/-- The number of entries of a directory. -/
def entryCount (offset : ℕ) : ℕ :=
  numberAt bytes offset 2 little

/-- Some entries in a row. -/
def entriesFrom (place : ℕ) (indices : List ℕ) : List DirectoryEntry :=
  indices.map fun index => entryAt bytes little (place + 12 * index)

/-- The entries of a directory. -/
def directoryAt (offset : ℕ) : List DirectoryEntry :=
  entriesFrom bytes little (offset + 2) (List.range (entryCount bytes little offset))

/-- The directory behind a directory that lies inside the bytes. -/
def nextDirectory (offset : ℕ) : Option ℕ :=
  let stop := offset + 2 + 12 * entryCount bytes little offset
  if stop + 4 ≤ bytes.length then some (numberAt bytes stop 4 little) else none

/-- The directories from the one at an offset on. -/
abbrev IsDirectoryChain : ℕ → List ℕ → Prop :=
  LeadsAlong (nextDirectory bytes little) (· = 0)

/-! ### What the loops read -/

variable {bytes little}

/-- The sizes of a page after another entry. -/
def RasterDims.read (dims : RasterDims) (entry : DirectoryEntry) : RasterDims where
  width := if entry.tag = 256 then entry.value else dims.width
  height := if entry.tag = 257 then entry.value else dims.height

variable {dims : RasterDims}

theorem directoryFrom_cons {offset index : ℕ} {indices : List ℕ}
    (h : (offset + 2) % 2 ^ 32 + 12 * index + 12 ≤ bytes.length) :
  directoryFrom bytes little offset (index :: indices) dims =
    let entry := entryAt bytes little ((offset + 2) % 2 ^ 32 + 12 * index)
    if entry.Typed then directoryFrom bytes little offset indices (dims.read entry)
    else some none
  := by
  rw [directoryFrom]
  generalize (offset + 2) % 2 ^ 32 + 12 * index = place at h ⊢
  rw [readUint_eq (by omega), readUint_eq (by omega), readUint_eq (by omega),
    readUint_eq (by omega)]
  simp only [bind_some]
  by_cases htag : numberAt bytes place 2 little = 256 ∨ numberAt bytes place 2 little = 257
  · rw [if_neg (by tauto)]
    have hset : ∀ value, dims.set (numberAt bytes place 2 little) value =
        dims.read { entryAt bytes little place with value } := by
      intro value
      rcases htag with htag | htag <;> simp [RasterDims.set, RasterDims.read, entryAt, htag]
    by_cases hshort : numberAt bytes (place + 2) 2 little = 3
    · have htyped : (entryAt bytes little place).Typed := fun _ => Or.inl hshort
      rw [if_pos hshort, if_pos htyped, hset]
      simp [entryAt, hshort]
    · rw [if_neg hshort]
      by_cases hlong : numberAt bytes (place + 2) 2 little = 4
      · have htyped : (entryAt bytes little place).Typed := fun _ => Or.inr hlong
        rw [if_pos hlong, if_pos htyped, hset]
        simp [entryAt, hshort]
      · have huntyped : ¬ (entryAt bytes little place).Typed := fun htyped =>
          (htyped htag).elim hshort hlong
        rw [if_neg hlong, if_neg huntyped]
  · have htyped : (entryAt bytes little place).Typed := fun htagged => absurd htagged htag
    have hread : dims.read (entryAt bytes little place) = dims := by
      obtain ⟨hwidth, hheight⟩ := not_or.mp htag
      simp [RasterDims.read, entryAt, hwidth, hheight]
    rw [if_pos (by tauto), if_pos htyped, hread]

/-- A directory is read if the tags of its sizes have their types. -/
theorem directoryFrom_eq {offset : ℕ} {indices : List ℕ}
    (h : ∀ index ∈ indices, (offset + 2) % 2 ^ 32 + 12 * index + 12 ≤ bytes.length) :
  directoryFrom bytes little offset indices dims =
    let entries := entriesFrom bytes little ((offset + 2) % 2 ^ 32) indices
    some (if ∀ entry ∈ entries, entry.Typed then
      some ⟨lastStated 256 entries dims.width, lastStated 257 entries dims.height⟩
    else none)
  := by
  induction indices generalizing dims with
  | nil => simp [directoryFrom, entriesFrom, lastStated]
  | cons index indices ih =>
    obtain ⟨hindex, hindices⟩ := forall_mem_cons.mp h
    simp only [entriesFrom, map_cons, forall_mem_cons, lastStated_cons]
    rw [directoryFrom_cons hindex]
    by_cases htyped : (entryAt bytes little ((offset + 2) % 2 ^ 32 + 12 * index)).Typed
    · simp only [ih hindices, htyped, true_and]
      rfl
    · simp only [htyped, false_and]
      rfl

variable (bytes little) in
/-- The entries that the walk reads: those of the directory, unless its offset is so large that
the place of the first entry is not one of 32 bits. -/
def walkedEntries (offset : ℕ) : List DirectoryEntry :=
  entriesFrom bytes little ((offset + 2) % 2 ^ 32) (List.range (entryCount bytes little offset))

theorem walkedEntries_eq {offset : ℕ} (h : offset + 2 < 2 ^ 32) :
  walkedEntries bytes little offset = directoryAt bytes little offset
  := by
  rw [walkedEntries, Nat.mod_eq_of_lt h, directoryAt]

/-- A directory that is not zero and has not been visited is read, and the next one follows. -/
theorem tiffFrom_eq {visited : Finset ℕ} {pages : List RasterDims} {offset : ℕ}
    (hzero : offset ≠ 0) (hvisited : offset ∉ visited) :
  tiffFrom bytes little visited pages offset =
    match nextDirectory bytes little offset with
    | none => some none
    | some next =>
      if ∀ entry ∈ walkedEntries bytes little offset, entry.Typed then
        tiffFrom bytes little (insert offset visited)
          (pages ++ [pageOf (walkedEntries bytes little offset)]) next
      else some none
  := by
  rw [tiffFrom, if_neg hzero, dif_neg hvisited]
  by_cases hinside : bytes.length < offset + 2
  · rw [dif_pos hinside, nextDirectory, if_neg (by omega)]
  have hcount : numberAt bytes offset 2 little = entryCount bytes little offset := rfl
  rw [dif_neg hinside, readUint_eq (by omega), bind_some, hcount]
  by_cases hstop : bytes.length < offset + 2 + 12 * entryCount bytes little offset + 4
  · rw [if_pos hstop, nextDirectory, if_neg (by omega)]
  have hmod : (offset + 2) % 2 ^ 32 ≤ offset + 2 := Nat.mod_le _ _
  have hdirectory : directoryFrom bytes little offset
      (range (entryCount bytes little offset)) {} =
      some (if ∀ entry ∈ walkedEntries bytes little offset, entry.Typed then
        some (pageOf (walkedEntries bytes little offset)) else none) := by
    apply directoryFrom_eq
    intro index hindex
    have hlt := mem_range.mp hindex
    omega
  rw [if_neg hstop, nextDirectory, if_pos (by omega), hdirectory, bind_some]
  by_cases htyped : ∀ entry ∈ walkedEntries bytes little offset, entry.Typed
  · simp only [if_pos htyped]
    rw [readUint_eq (by omega), bind_some]
  · simp only [if_neg htyped]

/-! ### The walk over the directories -/

/-- The walk ends, and the pages it reads are those of the chain. -/
theorem tiffFrom_walks (visited : Finset ℕ) (pages : List RasterDims) (offset : ℕ) :
  ∃ read, tiffFrom bytes little visited pages offset = some read ∧
    ∀ result ∈ read, result ≠ [] ∧ ∃ chain, IsDirectoryChain bytes little offset chain ∧
      (∀ member ∈ chain, ∀ entry ∈ walkedEntries bytes little member, entry.Typed) ∧
      result = pages ++ chain.map fun member => pageOf (walkedEntries bytes little member)
  := by
  induction hleft : (Finset.range bytes.length \ visited).card using Nat.strong_induction_on
    generalizing visited pages offset with
  | _ left ih =>
    by_cases hzero : offset = 0
    · rw [tiffFrom, if_pos hzero]
      refine ⟨_, rfl, fun result hresult => ?_⟩
      split at hresult
      case isTrue => cases hresult
      case isFalse hpages =>
        obtain rfl := mem_some_iff.mp hresult
        exact ⟨hpages, [], .done hzero, by simp, by simp⟩
    by_cases hvisited : offset ∈ visited
    · rw [tiffFrom, if_neg hzero, dif_pos hvisited]
      exact ⟨none, rfl, fun _ hmem => nomatch hmem⟩
    rw [tiffFrom_eq hzero hvisited]
    cases hnext : nextDirectory bytes little offset with
    | none => exact ⟨none, rfl, fun _ hmem => nomatch hmem⟩
    | some next =>
      by_cases htyped : ∀ entry ∈ walkedEntries bytes little offset, entry.Typed
      · simp only [if_pos htyped]
        have hinside : offset < bytes.length := by
          rw [nextDirectory] at hnext
          split at hnext
          case isTrue => omega
          case isFalse => cases hnext
        have hmem : offset ∈ Finset.range bytes.length \ visited :=
          Finset.mem_sdiff.mpr ⟨Finset.mem_range.mpr hinside, hvisited⟩
        have hcard : (Finset.range bytes.length \ insert offset visited).card < left := by
          rw [← hleft, Finset.sdiff_insert]
          exact Finset.card_erase_lt_of_mem hmem
        obtain ⟨read, heq, hread⟩ := ih _ hcard _
          (pages ++ [pageOf (walkedEntries bytes little offset)]) next rfl
        refine ⟨read, heq, fun result hresult => ?_⟩
        obtain ⟨hne, chain, hchain, hall, rfl⟩ := hread result hresult
        exact ⟨hne, offset :: chain, .step hzero hnext hchain,
          forall_mem_cons.mpr ⟨htyped, hall⟩, by simp⟩
      · simp only [if_neg htyped]
        exact ⟨none, rfl, fun _ hmem => nomatch hmem⟩

/-- A chain whose tags have their types is walked to its end. -/
theorem tiffFrom_of_chain {visited : Finset ℕ} {pages : List RasterDims} {offset : ℕ}
    {chain : List ℕ} (h : IsDirectoryChain bytes little offset chain)
    (hvisited : ∀ member ∈ chain, member ∉ visited)
    (htyped : ∀ member ∈ chain, ∀ entry ∈ walkedEntries bytes little member, entry.Typed)
    (hne : pages ≠ [] ∨ chain ≠ []) :
  tiffFrom bytes little visited pages offset =
    some (some (pages ++ chain.map fun member => pageOf (walkedEntries bytes little member)))
  := by
  have hnodup := h.nodup
  induction h generalizing visited pages with
  | done hzero =>
    have hpages : pages ≠ [] := hne.resolve_right fun hnil => hnil rfl
    rw [tiffFrom, if_pos hzero, if_neg hpages, map_nil, append_nil]
  | @step offset next chain hzero hnext hchain ih =>
    obtain ⟨hfresh, hnodup⟩ := nodup_cons.mp hnodup
    obtain ⟨hoffset, hvisited⟩ := forall_mem_cons.mp hvisited
    obtain ⟨hentries, htyped⟩ := forall_mem_cons.mp htyped
    rw [tiffFrom_eq hzero hoffset, hnext]
    simp only [if_pos hentries]
    rw [ih _ htyped (Or.inl (by simp)) hnodup, map_cons, append_assoc,
      singleton_append]
    intro member hmem hinsert
    rcases Finset.mem_insert.mp hinsert with rfl | hinsert
    · exact hfresh hmem
    · exact hvisited member hmem hinsert

theorem lastStated_lt {tag : ℕ} {entries : List DirectoryEntry} {unstated bound : ℕ}
    (h : ∀ entry ∈ entries, entry.value < bound) (hunstated : unstated < bound) :
  lastStated tag entries unstated < bound
  := by
  induction entries generalizing unstated with
  | nil => exact hunstated
  | cons entry entries ih =>
    obtain ⟨hentry, hentries⟩ := forall_mem_cons.mp h
    rw [lastStated_cons]
    apply ih hentries
    split
    case isTrue => exact hentry
    case isFalse => exact hunstated

theorem bounded_pageOf_walkedEntries (offset : ℕ) :
  (pageOf (walkedEntries bytes little offset)).Bounded
  := by
  have hvalue : ∀ entry ∈ walkedEntries bytes little offset, entry.value < 2 ^ 32 := by
    intro entry hentry
    obtain ⟨index, _, rfl⟩ := mem_map.mp hentry
    apply numberAt_lt_of_le
    split <;> decide
  exact And.intro (lastStated_lt hvalue (Nat.two_pow_pos 32))
    (lastStated_lt hvalue (Nat.two_pow_pos 32))

variable (bytes) in
/-- Whether the numbers of a TIFF are little-endian. -/
def isLittle : Bool :=
  bytes.getD 0 0 = 0x49

variable (bytes) in
/-- The directories of a TIFF, from the one that its header names. -/
def IsFileChain (chain : List ℕ) : Prop :=
  8 ≤ bytes.length ∧
    IsDirectoryChain bytes (isLittle bytes) (numberAt bytes 4 4 (isLittle bytes)) chain

theorem tiffDims_eq (h : 8 ≤ bytes.length) :
  tiffDims bytes =
    tiffFrom bytes (isLittle bytes) ∅ [] (numberAt bytes 4 4 (isLittle bytes))
  := by
  have hfirst : bytes[0]? = some (bytes.getD 0 0) := by
    rw [getD_eq_getElem?_getD, getElem?_eq_getElem (by omega)]
    rfl
  rw [tiffDims, if_neg (by omega), hfirst, bind_some]
  change (readUint bytes 4 4 (isLittle bytes)).bind _ = _
  rw [readUint_eq (by omega), bind_some]
  rfl

variable (bytes : List UInt8)

/-- The walk over a TIFF ends, and the pages that it finds are bounded. -/
theorem tiffDims_walks :
  ∃ read, tiffDims bytes = some read ∧ ∀ pages ∈ read, pages ≠ [] ∧
    (∀ dims ∈ pages, dims.Bounded) ∧ ∃ chain, IsFileChain bytes chain ∧
      (∀ offset ∈ chain, ∀ entry ∈ walkedEntries bytes (isLittle bytes) offset, entry.Typed) ∧
      pages = chain.map fun offset => pageOf (walkedEntries bytes (isLittle bytes) offset)
  := by
  by_cases hshort : bytes.length < 8
  · rw [tiffDims, if_pos hshort]
    exact ⟨none, rfl, fun _ hmem => nomatch hmem⟩
  rw [tiffDims_eq (not_lt.mp hshort)]
  obtain ⟨read, heq, hread⟩ := tiffFrom_walks ∅ []
    (numberAt bytes 4 4 (isLittle bytes))
  refine ⟨read, heq, fun pages hpages => ?_⟩
  obtain ⟨hne, chain, hchain, htyped, rfl⟩ := hread pages hpages
  refine ⟨hne, ?_, chain, ⟨not_lt.mp hshort, hchain⟩, htyped, nil_append _⟩
  intro dims hdims
  rw [nil_append] at hdims
  obtain ⟨offset, _, rfl⟩ := mem_map.mp hdims
  exact bounded_pageOf_walkedEntries offset

theorem tiffDims_iff (pages : List RasterDims)
    (hplaces : ∀ chain, IsFileChain bytes chain → ∀ offset ∈ chain, offset + 2 < 2 ^ 32) :
  tiffDims bytes = some (some pages) ↔
    ∃ chain, chain ≠ [] ∧ IsFileChain bytes chain ∧ chain.Nodup ∧
      (∀ offset ∈ chain, ∀ entry ∈ directoryAt bytes (isLittle bytes) offset, entry.Typed) ∧
      pages = chain.map fun offset => pageOf (directoryAt bytes (isLittle bytes) offset)
  := by
  have hwalked : ∀ chain, IsFileChain bytes chain → ∀ offset ∈ chain,
      walkedEntries bytes (isLittle bytes) offset = directoryAt bytes (isLittle bytes) offset :=
    fun chain hchain offset hoffset => walkedEntries_eq (hplaces chain hchain offset hoffset)
  have hpagesOf : ∀ chain, IsFileChain bytes chain →
      (chain.map fun offset => pageOf (walkedEntries bytes (isLittle bytes) offset)) =
        chain.map fun offset => pageOf (directoryAt bytes (isLittle bytes) offset) := by
    intro chain hchain
    apply map_congr_left
    intro offset hoffset
    rw [hwalked chain hchain offset hoffset]
  constructor
  · intro hpages
    obtain ⟨read, heq, hread⟩ := tiffDims_walks bytes
    obtain rfl := some.inj (heq.symm.trans hpages)
    obtain ⟨hne, _, chain, hchain, htyped, rfl⟩ := hread pages rfl
    refine ⟨chain, fun hnil => hne (by rw [hnil]; rfl), hchain, hchain.2.nodup, ?_,
      hpagesOf chain hchain⟩
    intro offset hoffset
    rw [← hwalked chain hchain offset hoffset]
    exact htyped offset hoffset
  · rintro ⟨chain, hne, hchain, _, htyped, rfl⟩
    rw [tiffDims_eq hchain.1, tiffFrom_of_chain hchain.2 (by simp) ?_ (Or.inr hne),
      nil_append, hpagesOf chain hchain]
    intro offset hoffset
    rw [hwalked chain hchain offset hoffset]
    exact htyped offset hoffset

/-! ### What is accepted -/

theorem readsSafely_jpegDims :
  ReadsSafely (jpegDims bytes)
  := readsSafely_jpegFrom 2

/-- The pages of an image are found without a read outside the bytes, and are bounded. -/
def PagesBounded (pages : Option (Option (List RasterDims))) : Prop :=
  ∃ read, pages = some read ∧ ∀ pages ∈ read, ∀ dims ∈ pages, dims.Bounded

theorem pagesBounded_none :
  PagesBounded (some none)
  := ⟨none, rfl, fun _ hmem => nomatch hmem⟩

theorem ReadsSafely.single {dims : Option (Option RasterDims)} (h : ReadsSafely dims) :
  PagesBounded (single dims)
  := by
  obtain ⟨read, rfl, hread⟩ := h
  refine ⟨_, rfl, ?_⟩
  rintro pages hpages dims hdims
  obtain ⟨page, hpage, rfl⟩ := mem_map.mp hpages
  obtain rfl := mem_singleton.mp hdims
  exact hread _ hpage

theorem pagesBounded_tiffDims :
  PagesBounded (tiffDims bytes)
  := by
  obtain ⟨read, heq, hread⟩ := tiffDims_walks bytes
  exact ⟨read, heq, fun pages hpages => (hread pages hpages).2.1⟩

theorem pagesBounded_imagePages :
  PagesBounded (imagePages bytes)
  := by
  unfold imagePages
  split_ifs with htiff hpng hjpeg hgif hbmp hwebp
  · exact pagesBounded_tiffDims bytes
  · exact readsSafely_pngDims.single
  · exact (readsSafely_jpegDims bytes).single
  · exact (readsSafely_gifDims (of_decide_eq_true (Bool.and_eq_true_iff.mp hgif).1)).single
  · exact (readsSafely_bmpDims (of_decide_eq_true (Bool.and_eq_true_iff.mp hbmp).1)).single
  · obtain ⟨hlength, _⟩ := Bool.and_eq_true_iff.mp (Bool.and_eq_true_iff.mp hwebp).1
    exact (readsSafely_webpDims (of_decide_eq_true hlength)).single
  · exact pagesBounded_none

theorem pagesBounded_rasterPages {bytes : List UInt8} (h : isSupportedRaster bytes) :
  PagesBounded (rasterPages bytes)
  := by
  unfold rasterPages
  split_ifs
  · exact pagesBounded_tiffDims bytes
  · have hne : bytes ≠ [] := by
      rintro rfl
      cases h
    obtain ⟨first, rest, rfl⟩ := exists_cons_of_ne_nil hne
    rw [getElem?_cons_zero, bind_some]
    apply ReadsSafely.single
    split_ifs
    · exact readsSafely_pngDims
    · exact readsSafely_jpegDims _

/-- The product of two sizes of 32 bits is exact in 64. -/
theorem RasterDims.Bounded.product (h : dims.Bounded) :
  dims.width * dims.height % 2 ^ 64 = dims.width * dims.height
  := by
  apply Nat.mod_eq_of_lt
  calc dims.width * dims.height < 2 ^ 32 * 2 ^ 32 := Nat.mul_lt_mul'' h.1 h.2
    _ = 2 ^ 64 := (pow_add 2 32 32).symm

variable {limit : ℕ}

/-- A page that is accepted: its number of pixels is positive and at most the limit. -/
def Accepted (limit : ℕ) (dims : RasterDims) : Prop :=
  1 ≤ dims.width * dims.height ∧ dims.width * dims.height ≤ limit

theorem accepted_of_withinCap (hbounded : dims.Bounded) (h : withinCap limit dims) :
  Accepted limit dims
  := by
  simp only [withinCap, Bool.and_eq_true, decide_eq_true_eq, hbounded.product] at h
  obtain ⟨⟨hwidth, hheight⟩, hlimit⟩ := h
  exact ⟨Nat.mul_pos (Nat.pos_of_ne_zero hwidth) (Nat.pos_of_ne_zero hheight), hlimit⟩

theorem accepted_of_pageError (hbounded : dims.Bounded) (h : pageError limit dims = none) :
  Accepted limit dims
  := by
  rw [pageError, hbounded.product] at h
  split_ifs at h with hempty hlarge
  obtain ⟨hwidth, hheight⟩ := not_or.mp hempty
  exact ⟨Nat.mul_pos (Nat.pos_of_ne_zero hwidth) (Nat.pos_of_ne_zero hheight), not_lt.mp hlarge⟩

theorem encodedImageWithinPixelCap_accepts (limit : ℕ) :
  ∃ accepts, encodedImageWithinPixelCap bytes limit = some accepts ∧ (accepts →
    ∃ pages, imagePages bytes = some (some pages) ∧ ∀ dims ∈ pages, Accepted limit dims)
  := by
  obtain ⟨read, heq, hread⟩ := pagesBounded_imagePages bytes
  rw [encodedImageWithinPixelCap, heq]
  refine ⟨_, rfl, fun haccepts => ?_⟩
  cases read with
  | none => cases haccepts
  | some pages =>
    refine ⟨pages, rfl, fun dims hdims => ?_⟩
    exact accepted_of_withinCap (hread pages rfl dims hdims) (all_eq_true.mp haccepts dims hdims)

theorem rasterPageCount_accepts (limit : ℕ) :
  ∃ answer, rasterPageCount bytes limit = some answer ∧ ∀ count, answer = .ok count →
    ∃ pages, rasterPages bytes = some (some pages) ∧ pages.length = count ∧
      ∀ dims ∈ pages, Accepted limit dims
  := by
  unfold rasterPageCount
  split_ifs with hlarge hsupported
  · exact ⟨_, rfl, nofun⟩
  · exact ⟨_, rfl, nofun⟩
  · have hraster : isSupportedRaster bytes := by simpa using hsupported
    obtain ⟨read, heq, hread⟩ := pagesBounded_rasterPages hraster
    rw [heq]
    refine ⟨_, rfl, fun count hcount => ?_⟩
    cases read with
    | none => cases hcount
    | some pages =>
      simp only at hcount
      cases hfind : pages.findSome? (pageError limit) with
      | some message => rw [hfind] at hcount; cases hcount
      | none =>
        rw [hfind] at hcount
        simp only at hcount
        split_ifs at hcount
        refine ⟨pages, rfl, Except.ok.inj hcount, fun dims hdims => ?_⟩
        exact accepted_of_pageError (hread pages rfl dims hdims)
          (findSome?_eq_none_iff.mp hfind dims hdims)

/-- Headers are read inside the bytes.  A TIFF has a list of pages if its chain of directories is
not empty and the tags of the sizes have their types, and then there is a page for every directory.
What is accepted has a positive number of pixels up to the limit. -/
theorem rasterHeaders_walked (bytes : List UInt8) (limit : ℕ) :
  ((pngDims bytes).isSome ∧ (jpegDims bytes).isSome ∧ (tiffDims bytes).isSome ∧
    (encodedImageWithinPixelCap bytes limit).isSome ∧ (rasterPageCount bytes limit).isSome) ∧
  ((∀ chain, IsFileChain bytes chain → ∀ offset ∈ chain, offset + 2 < 2 ^ 32) →
    ∀ pages, tiffDims bytes = some (some pages) ↔
      ∃ chain, chain ≠ [] ∧ IsFileChain bytes chain ∧ chain.Nodup ∧
        (∀ offset ∈ chain, ∀ entry ∈ directoryAt bytes (isLittle bytes) offset, entry.Typed) ∧
        pages = chain.map fun offset => pageOf (directoryAt bytes (isLittle bytes) offset)) ∧
  (encodedImageWithinPixelCap bytes limit = some true →
    ∃ pages, imagePages bytes = some (some pages) ∧ ∀ dims ∈ pages, Accepted limit dims) ∧
  (∀ count, rasterPageCount bytes limit = some (.ok count) →
    ∃ pages, rasterPages bytes = some (some pages) ∧ pages.length = count ∧
      ∀ dims ∈ pages, Accepted limit dims)
  := by
  obtain ⟨png, hpng, _⟩ := readsSafely_pngDims
  obtain ⟨jpeg, hjpeg, _⟩ := readsSafely_jpegDims bytes
  obtain ⟨tiff, htiff, _⟩ := tiffDims_walks bytes
  obtain ⟨accepts, haccepts, haccepted⟩ := encodedImageWithinPixelCap_accepts bytes limit
  obtain ⟨answer, hanswer, hanswered⟩ := rasterPageCount_accepts bytes limit
  refine ⟨?_, fun hplaces pages => tiffDims_iff bytes pages hplaces, ?_, ?_⟩
  · rw [hpng, hjpeg, htiff, haccepts, hanswer]
    exact ⟨rfl, rfl, rfl, rfl, rfl⟩
  · intro htrue
    exact haccepted (Option.some.inj (haccepts.symm.trans htrue))
  · intro count hcount
    exact hanswered count (Option.some.inj (hanswer.symm.trans hcount))

/-- A TIFF of one page, five pixels wide and seven high. -/
def onePage : List UInt8 :=
  kTiffLittle ++ [8, 0, 0, 0, 2, 0,
    0, 1, 3, 0, 1, 0, 0, 0, 5, 0, 0, 0,
    1, 1, 3, 0, 1, 0, 0, 0, 7, 0, 0, 0,
    0, 0, 0, 0]

theorem rasterHeaders_walked_onePage :
  tiffDims onePage = some (some [{ width := 5, height := 7 }])
  := by
  have hoffset : numberAt onePage 4 4 (isLittle onePage) = 8 := by decide
  have hnext : nextDirectory onePage (isLittle onePage) 8 = some 0 := by decide
  have hchain : IsFileChain onePage [8] := by
    refine ⟨by decide, ?_⟩
    rw [hoffset]
    exact .step (by decide) hnext (.done rfl)
  have hplaces : ∀ chain, IsFileChain onePage chain → ∀ offset ∈ chain, offset + 2 < 2 ^ 32 := by
    intro chain hother offset hoffset
    rw [hother.2.unique hchain.2, List.mem_singleton] at hoffset
    omega
  apply ((rasterHeaders_walked onePage 35).2.1 hplaces _).mpr
  have hentries : directoryAt onePage (isLittle onePage) 8 = [⟨256, 3, 5⟩, ⟨257, 3, 7⟩] := by decide
  refine ⟨[8], by decide, hchain, by decide, ?_, ?_⟩
  · intro offset hoffset
    rw [List.mem_singleton.mp hoffset, hentries]
    exact List.all_iff_forall_prop.mp rfl
  · rw [List.map_singleton, hentries]
    rfl

/-- A TIFF without a directory, which ends the chain at once. -/
def noPage : List UInt8 :=
  kTiffLittle ++ [0, 0, 0, 0]

/-- The empty chain of directories ends in zero, but is no list of pages. -/
theorem tiffDims_noPage :
  ¬ ∀ pages, tiffDims noPage = some (some pages) ↔
    ∃ chain, IsFileChain noPage chain ∧ chain.Nodup ∧
      (∀ offset ∈ chain, ∀ entry ∈ directoryAt noPage (isLittle noPage) offset, entry.Typed) ∧
      pages = chain.map fun offset => pageOf (directoryAt noPage (isLittle noPage) offset)
  := by
  intro h
  have hoffset : numberAt noPage 4 4 (isLittle noPage) = 0 := by decide
  have hchain : IsFileChain noPage [] := ⟨by decide, .done hoffset⟩
  have hempty := (h []).mpr ⟨[], hchain, List.nodup_nil, by simp, rfl⟩
  have hrefused : tiffDims noPage = some none := by
    rw [tiffDims_eq hchain.1, tiffFrom, if_pos hoffset, if_pos rfl]
  rw [hrefused] at hempty
  cases hempty

end GRParse.Raster
