import GRParse.Lib.LittleEndian
import Mathlib.Algebra.Order.BigOperators.Group.List

/-!
# Writing an archive

`write_zip` writes the members of an archive one after another, each behind its local header,
then a directory with a header for each, then the end of the directory.  The fields of the
headers have 16 or 32 bits, and the greatest value of a size or an offset announces a record
that is never written; so what does not fit is refused.

Raw deflate and the checksum of miniz are left open.
-/

namespace GRParse.Zip

open LittleEndian List

/-! ### Members -/

/-- A file of a bundle: its path and its bytes. -/
structure BundleFile where
  path : List UInt8
  bytes : List UInt8
  deriving DecidableEq

def kLocalHeaderSignature : UInt32 := 0x04034b50

def kCentralHeaderSignature : UInt32 := 0x02014b50

def kEndOfDirectorySignature : UInt32 := 0x06054b50

def kVersionNeeded : UInt16 := 20

def kVersionMadeBy : UInt16 := 0x031e

/-- `0100644 << 16`. -/
def kExternalAttributes : UInt32 := 0x81a40000

def kMethodStored : UInt16 := 0

def kMethodDeflate : UInt16 := 8

def kFixedDosTime : UInt16 := 0

def kFixedDosDate : UInt16 := 0x0021

structure Compressed where
  bytes : List UInt8
  method : UInt16

section

variable (rawDeflate : List UInt8 → Option (List UInt8)) (crc32 : List UInt8 → UInt32)

/-- `deflate`: the bytes deflated where that makes them fewer. -/
def deflate (data : List UInt8) : Except String Compressed :=
  if data ≠ [] then
    match rawDeflate data with
    | none => .error "zip writer could not compress a member"
    | some compressed =>
      if compressed.length < data.length then .ok ⟨compressed, kMethodDeflate⟩
      else .ok ⟨data, kMethodStored⟩
  else .ok ⟨data, kMethodStored⟩

/-- `checked_size`: a size, unless it would need a ZIP64 record. -/
def checkedSize (size : ℕ) (what : String) : Except String UInt32 :=
  if 0xffffffff ≤ size then .error ("zip writer would need ZIP64: " ++ what)
  else .ok (.ofNat size)

/-! ### Headers -/

/-- What a local header and a central one say about a member. -/
structure HeaderFields where
  method : UInt16
  crc : UInt32
  compressed : UInt32
  uncompressed : UInt32
  nameLength : UInt16

/-- The fields that the two headers have in common. -/
def HeaderFields.put (fields : HeaderFields) : List UInt8 :=
  put16 kVersionNeeded ++ (put16 0 ++ (put16 fields.method ++ (put16 kFixedDosTime ++
    (put16 kFixedDosDate ++ (put32 fields.crc ++ (put32 fields.compressed ++
    (put32 fields.uncompressed ++ (put16 fields.nameLength ++ put16 0))))))))

/-- A member with its local header. -/
def localRecord (fields : HeaderFields) (path payload : List UInt8) : List UInt8 :=
  put32 kLocalHeaderSignature ++ (fields.put ++ (path ++ payload))

/-- The entry of a member in the directory. -/
def centralRecord (fields : HeaderFields) (path : List UInt8) (offset : UInt32) : List UInt8 :=
  put32 kCentralHeaderSignature ++ (put16 kVersionMadeBy ++ (fields.put ++ (put16 0 ++
    (put16 0 ++ (put16 0 ++ (put32 kExternalAttributes ++ (put32 offset ++ path)))))))

def endRecord (entries : UInt16) (directorySize directoryOffset : UInt32) : List UInt8 :=
  put32 kEndOfDirectorySignature ++ (put16 0 ++ (put16 0 ++ (put16 entries ++ (put16 entries ++
    (put32 directorySize ++ (put32 directoryOffset ++ put16 0))))))

/-! ### The archive -/

/-- The archive so far, and its directory. -/
structure Written where
  archive : List UInt8 := []
  directory : List UInt8 := []

/-- One member of `write_zip`. -/
def writeMember (written : Written) (file : BundleFile) : Except String Written := do
  let offset ← checkedSize written.archive.length "archive size"
  let uncompressed ← checkedSize file.bytes.length "member size"
  let payload ← deflate rawDeflate file.bytes
  let compressed ← checkedSize payload.bytes.length "member size"
  let checkedLength ← checkedSize file.path.length "member name length"
  let fields : HeaderFields :=
    ⟨payload.method, crc32 file.bytes, compressed, uncompressed, checkedLength.toUInt16⟩
  if file.path.length ≠ fields.nameLength.toNat then
    .error "zip writer rejects a member name past 65535 bytes"
  else
    .ok ⟨written.archive ++ localRecord fields file.path payload.bytes,
      written.directory ++ centralRecord fields file.path offset⟩

/-- `write_zip`. -/
def writeZip (files : List BundleFile) : Except String (List UInt8) :=
  if 0xffff ≤ files.length then .error "zip writer would need ZIP64: too many members"
  else do
    let written ← files.foldlM (writeMember rawDeflate crc32) {}
    let directoryOffset ← checkedSize written.archive.length "archive size"
    let directorySize ← checkedSize written.directory.length "central directory size"
    return written.archive ++ (written.directory ++
      endRecord (.ofNat files.length) directorySize directoryOffset)

/-! ### What is written -/

/-- What is stored for some bytes, where they can be deflated. -/
def payloadOf (data : List UInt8) : Compressed :=
  match rawDeflate data with
  | none => ⟨data, kMethodStored⟩
  | some compressed =>
    if data ≠ [] ∧ compressed.length < data.length then ⟨compressed, kMethodDeflate⟩
    else ⟨data, kMethodStored⟩

/-- What the headers say about a file. -/
def fieldsOf (file : BundleFile) : HeaderFields where
  method := (payloadOf rawDeflate file.bytes).method
  crc := crc32 file.bytes
  compressed := .ofNat (payloadOf rawDeflate file.bytes).bytes.length
  uncompressed := .ofNat file.bytes.length
  nameLength := .ofNat file.path.length

/-- The bytes that a file takes up among the members. -/
def memberSize (file : BundleFile) : ℕ :=
  30 + file.path.length + (payloadOf rawDeflate file.bytes).bytes.length

/-- The bytes of all members. -/
def bodySize (files : List BundleFile) : ℕ :=
  (files.map (memberSize rawDeflate)).sum

/-- The bytes of the directory. -/
def directorySize (files : List BundleFile) : ℕ :=
  (files.map fun file => 46 + file.path.length).sum

/-- The members, one after another. -/
def bodyOf (files : List BundleFile) : List UInt8 :=
  files.flatMap fun file =>
    localRecord (fieldsOf rawDeflate crc32 file) file.path (payloadOf rawDeflate file.bytes).bytes

/-- The directory of files whose members start at an offset. -/
def directoryFrom (offset : ℕ) : List BundleFile → List UInt8
  | [] => []
  | file :: files =>
    centralRecord (fieldsOf rawDeflate crc32 file) file.path (.ofNat offset) ++
      directoryFrom (offset + memberSize rawDeflate file) files

/-- The end of the directory. -/
def endOf (files : List BundleFile) : List UInt8 :=
  endRecord (.ofNat files.length) (.ofNat (directorySize files))
    (.ofNat (bodySize rawDeflate files))

/-- The bytes of an archive. -/
def archiveOf (files : List BundleFile) : List UInt8 :=
  bodyOf rawDeflate crc32 files ++
    (directoryFrom rawDeflate crc32 0 files ++ endOf rawDeflate files)

/-- A file that an archive can have as a member. -/
structure FileFits (file : BundleFile) : Prop where
  name : file.path.length ≤ 0xffff
  size : file.bytes.length < 0xffffffff
  compresses : file.bytes ≠ [] → (rawDeflate file.bytes).isSome

/-- Files that fit the fields of an archive, none of which is one that announces a ZIP64
record. -/
structure Fits (files : List BundleFile) : Prop where
  count : files.length < 0xffff
  member : ∀ file ∈ files, FileFits rawDeflate file
  body : bodySize rawDeflate files < 0xffffffff
  directory : directorySize files < 0xffffffff

end

variable {rawDeflate : List UInt8 → Option (List UInt8)} {crc32 : List UInt8 → UInt32}

/-- A run that succeeds has a first step that does. -/
theorem bind_eq_ok {α β : Type} {first : Except String α} {rest : α → Except String β} {b : β}
    (h : first >>= rest = .ok b) :
  ∃ a, first = .ok a ∧ rest a = .ok b
  := by
  cases first with
  | error message => cases h
  | ok a => exact ⟨a, rfl, h⟩

@[simp]
theorem bodySize_nil : bodySize rawDeflate [] = 0 := rfl

@[simp]
theorem bodySize_cons (file : BundleFile) (files : List BundleFile) :
  bodySize rawDeflate (file :: files) = memberSize rawDeflate file + bodySize rawDeflate files
  := rfl

@[simp]
theorem directorySize_nil : directorySize [] = 0 := rfl

@[simp]
theorem directorySize_cons (file : BundleFile) (files : List BundleFile) :
  directorySize (file :: files) = 46 + file.path.length + directorySize files
  := rfl

@[simp]
theorem length_put (fields : HeaderFields) :
  fields.put.length = 26
  := rfl

theorem length_localRecord (fields : HeaderFields) (path payload : List UInt8) :
  (localRecord fields path payload).length = 30 + path.length + payload.length
  := by
  simp [localRecord]
  omega

theorem length_centralRecord (fields : HeaderFields) (path : List UInt8) (offset : UInt32) :
  (centralRecord fields path offset).length = 46 + path.length
  := by
  simp [centralRecord]
  omega

@[simp]
theorem length_endOf (files : List BundleFile) :
  (endOf rawDeflate files).length = 22
  := rfl

theorem length_payloadOf_le (data : List UInt8) :
  (payloadOf rawDeflate data).bytes.length ≤ data.length
  := by
  unfold payloadOf
  split
  case h_1 => exact le_rfl
  case h_2 compressed _ =>
    split
    case isTrue h => exact h.2.le
    case isFalse => exact le_rfl

theorem checkedSize_eq_ok {size : ℕ} {what : String} (h : size < 0xffffffff) :
  checkedSize size what = .ok (.ofNat size)
  := by
  rw [checkedSize, if_neg (by omega)]

theorem checkedSize_ok {size : ℕ} {what : String} {checked : UInt32}
    (h : checkedSize size what = .ok checked) :
  size < 0xffffffff ∧ checked = .ofNat size
  := by
  by_cases hsize : 0xffffffff ≤ size
  · rw [checkedSize, if_pos hsize] at h
    cases h
  · rw [checkedSize, if_neg hsize] at h
    cases h
    exact ⟨by omega, rfl⟩

theorem deflate_eq_ok {data : List UInt8} (h : data ≠ [] → (rawDeflate data).isSome) :
  deflate rawDeflate data = .ok (payloadOf rawDeflate data)
  := by
  by_cases hempty : data = []
  · subst hempty
    unfold deflate payloadOf
    cases rawDeflate [] <;> simp
  · obtain ⟨compressed, hcompressed⟩ := Option.isSome_iff_exists.mp (h hempty)
    simp [deflate, payloadOf, hempty, hcompressed]
    split <;> rfl

theorem deflate_ok {data : List UInt8} {payload : Compressed}
    (h : deflate rawDeflate data = .ok payload) (hempty : data ≠ []) :
  (rawDeflate data).isSome
  := by
  cases hdeflate : rawDeflate data with
  | none => simp [deflate, hempty, hdeflate] at h
  | some compressed => rfl

theorem length_memberRecord (file : BundleFile) :
  (localRecord (fieldsOf rawDeflate crc32 file) file.path
    (payloadOf rawDeflate file.bytes).bytes).length = memberSize rawDeflate file
  := length_localRecord _ _ _

theorem length_bodyOf (files : List BundleFile) :
  (bodyOf rawDeflate crc32 files).length = bodySize rawDeflate files
  := by
  simp only [bodyOf, bodySize, length_flatMap, length_memberRecord]

theorem length_directoryFrom (offset : ℕ) (files : List BundleFile) :
  (directoryFrom rawDeflate crc32 offset files).length
    = directorySize files
  := by
  induction files generalizing offset with
  | nil => rfl
  | cons file files ih => simp [directoryFrom, length_centralRecord, ih]

/-! ### When a list is written -/

/-- A member is written where it fits behind those before it. -/
theorem writeMember_eq_ok {written : Written} {file : BundleFile} (h : FileFits rawDeflate file)
    (hlength : written.archive.length < 0xffffffff) :
  writeMember rawDeflate crc32 written file = .ok
    ⟨written.archive ++ localRecord (fieldsOf rawDeflate crc32 file) file.path
        (payloadOf rawDeflate file.bytes).bytes,
      written.directory ++ centralRecord (fieldsOf rawDeflate crc32 file) file.path
        (.ofNat written.archive.length)⟩
  := by
  have hname := h.name
  have hpayload : (payloadOf rawDeflate file.bytes).bytes.length < 0xffffffff :=
    (length_payloadOf_le _).trans_lt h.size
  simp only [writeMember, checkedSize_eq_ok hlength, checkedSize_eq_ok h.size,
    deflate_eq_ok h.compresses, checkedSize_eq_ok hpayload,
    checkedSize_eq_ok (show file.path.length < 0xffffffff by omega), bind, Except.bind]
  rw [if_neg]
  · simp [fieldsOf]
  · simp
    omega

/-- Nothing else is written for a member. -/
theorem writeMember_ok {written next : Written} {file : BundleFile}
    (h : writeMember rawDeflate crc32 written file = .ok next) :
  FileFits rawDeflate file ∧ written.archive.length < 0xffffffff
  := by
  obtain ⟨offset, hoffset, h⟩ := bind_eq_ok h
  obtain ⟨uncompressed, huncompressed, h⟩ := bind_eq_ok h
  obtain ⟨payload, hpayload, h⟩ := bind_eq_ok h
  obtain ⟨compressed, -, h⟩ := bind_eq_ok h
  obtain ⟨checkedLength, hchecked, h⟩ := bind_eq_ok h
  obtain ⟨hlength, rfl⟩ := checkedSize_ok hchecked
  have hname : file.path.length = (UInt32.ofNat file.path.length).toUInt16.toNat := by
    by_contra hne
    rw [if_pos hne] at h
    cases h
  refine ⟨⟨?_, (checkedSize_ok huncompressed).1, deflate_ok hpayload⟩, (checkedSize_ok hoffset).1⟩
  have := UInt16.toNat_lt (UInt32.ofNat file.path.length).toUInt16
  omega

variable {files : List BundleFile}

/-- The members that fit are written one after another. -/
theorem foldlM_writeMember_eq_ok {written : Written}
    (h : ∀ file ∈ files, FileFits rawDeflate file)
    (hlength : written.archive.length + bodySize rawDeflate files < 0xffffffff) :
  files.foldlM (writeMember rawDeflate crc32) written = .ok
    ⟨written.archive ++ bodyOf rawDeflate crc32 files,
      written.directory ++ directoryFrom rawDeflate crc32 written.archive.length files⟩
  := by
  induction files generalizing written with
  | nil => simp [bodyOf, directoryFrom, pure, Except.pure]
  | cons file files ih =>
    obtain ⟨hfile, hfiles⟩ := forall_mem_cons.mp h
    rw [bodySize_cons] at hlength
    rw [foldlM_cons, writeMember_eq_ok hfile (by omega)]
    refine (ih hfiles ?_).trans ?_
    · rw [length_append, length_memberRecord]
      omega
    · rw [length_append, length_memberRecord]
      simp [bodyOf, directoryFrom]

theorem foldlM_writeMember_ok {written next : Written}
    (h : files.foldlM (writeMember rawDeflate crc32) written = .ok next) :
  (∀ file ∈ files, FileFits rawDeflate file) ∧
    next.archive.length = written.archive.length + bodySize rawDeflate files ∧
    next.directory.length
      = written.directory.length + directorySize files
  := by
  induction files generalizing written with
  | nil =>
    obtain rfl : written = next := by simpa [pure, Except.pure] using h
    simp
  | cons file files ih =>
    rw [foldlM_cons] at h
    obtain ⟨between, hbetween, h⟩ := bind_eq_ok h
    obtain ⟨hfile, hlength⟩ := writeMember_ok hbetween
    rw [writeMember_eq_ok hfile hlength] at hbetween
    cases hbetween
    obtain ⟨hfiles, harchive, hdirectory⟩ := ih h
    refine ⟨forall_mem_cons.mpr ⟨hfile, hfiles⟩, ?_, ?_⟩
    · rw [harchive, length_append, length_memberRecord, bodySize_cons]
      omega
    · rw [hdirectory, length_append, length_centralRecord, directorySize_cons]
      omega

theorem writeZip_eq_ok (h : Fits rawDeflate files) :
  writeZip rawDeflate crc32 files = .ok (archiveOf rawDeflate crc32 files)
  := by
  have hcount := h.count
  rw [writeZip, if_neg (by omega), foldlM_writeMember_eq_ok h.member (by simpa using h.body)]
  simp only [bind, Except.bind, nil_append, length_nil, length_bodyOf,
    length_directoryFrom, checkedSize_eq_ok h.body, checkedSize_eq_ok h.directory]
  rfl

theorem writeZip_ok {archive : List UInt8} (h : writeZip rawDeflate crc32 files = .ok archive) :
  Fits rawDeflate files
  := by
  have hcount : files.length < 0xffff := by
    by_contra hcount
    rw [writeZip, if_pos (by omega)] at h
    cases h
  rw [writeZip, if_neg (by omega)] at h
  obtain ⟨written, hwritten, h⟩ := bind_eq_ok h
  obtain ⟨directoryOffset, hoffset, h⟩ := bind_eq_ok h
  obtain ⟨directorySize, hsize, h⟩ := bind_eq_ok h
  obtain ⟨hmember, harchive, hdirectory⟩ := foldlM_writeMember_ok hwritten
  simp only [length_nil, Nat.zero_add] at harchive hdirectory
  exact ⟨hcount, hmember, harchive ▸ (checkedSize_ok hoffset).1,
    hdirectory ▸ (checkedSize_ok hsize).1⟩

end GRParse.Zip
