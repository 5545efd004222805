import GRParse.Targets.ZipWriter

/-!
# Reading an archive back

An archive is read from its end: the record there says where the directory is, each header of
the directory where its member is.  The archives that are written are read back to the files
they were written from, and `zip_central_names` finds their paths.
-/

namespace GRParse.Zip

open LittleEndian List

/-! ### A reader of archives -/

/-- What a header of either kind says about a member. -/
structure MemberHeader where
  method : UInt32
  crc : UInt32
  compressed : UInt32
  uncompressed : UInt32
  name : List UInt8
  deriving DecidableEq

/-- An entry of the directory: the header, and the offset of the member. -/
structure Entry where
  header : MemberHeader
  offset : ℕ
  deriving DecidableEq

/-- A member that was read: where it starts and stops, its two headers, its bytes. -/
structure Member where
  start : ℕ
  stop : ℕ
  centralHeader : MemberHeader
  localHeader : MemberHeader
  bytes : List UInt8
  deriving DecidableEq

/-- An archive that was read. -/
structure Reading where
  members : List Member
  directoryAt : ℕ
  directorySize : ℕ
  deriving DecidableEq

/-- The header with its common fields at the start of `fields` and its name at that of
`name`. -/
def readHeader (fields name : List UInt8) : MemberHeader where
  method := le16 fields 4
  crc := le32 fields 10
  compressed := le32 fields 14
  uncompressed := le32 fields 18
  name := name.take (le16 fields 22).toNat

/-- The entry of the directory at the start of some bytes, and its length. -/
def readEntry (bytes : List UInt8) : Option (Entry × ℕ) :=
  if le32 bytes 0 = kCentralHeaderSignature then
    some (⟨readHeader (bytes.drop 6) (bytes.drop 46), (le32 bytes 42).toNat⟩,
      46 + (le16 bytes 28).toNat + (le16 bytes 30).toNat + (le16 bytes 32).toNat)
  else none

/-- A number of entries from a position on, and where they stop. -/
def readDirectory (archive : List UInt8) : ℕ → ℕ → Option (List Entry × ℕ)
  | 0, position => some ([], position)
  | count + 1, position => do
    let (entry, length) ← readEntry (archive.drop position)
    let (entries, stop) ← readDirectory archive count (position + length)
    return (entry :: entries, stop)

section

variable (inflate : List UInt8 → Option (List UInt8)) (crc32 : List UInt8 → UInt32)

/-- The bytes of a payload. -/
def readPayload (method : UInt32) (payload : List UInt8) : Option (List UInt8) :=
  if method = kMethodStored.toUInt32 then some payload
  else if method = kMethodDeflate.toUInt32 then inflate payload
  else none

/-- The member that an entry names, if its bytes are those its header announces. -/
def readMember (archive : List UInt8) (entry : Entry) : Option Member :=
  let record := archive.drop entry.offset
  let header := readHeader (record.drop 4) (record.drop 30)
  let payloadAt := 30 + (le16 record 26).toNat + (le16 record 28).toNat
  if le32 record 0 = kLocalHeaderSignature then
    match readPayload inflate header.method
        ((record.drop payloadAt).take header.compressed.toNat) with
    | none => none
    | some bytes =>
      if bytes.length = header.uncompressed.toNat ∧ crc32 bytes = header.crc then
        some ⟨entry.offset, entry.offset + payloadAt + header.compressed.toNat, entry.header,
          header, bytes⟩
      else none
  else none

/-- The members of an archive with its end record in its last bytes. -/
def readArchive (archive : List UInt8) : Option Reading := do
  let record := archive.drop (archive.length - 22)
  let directorySize := (le32 record 12).toNat
  let directoryAt := (le32 record 16).toNat
  if le32 record 0 = kEndOfDirectorySignature then
    let (entries, stop) ← readDirectory archive (le16 record 10).toNat directoryAt
    if stop = directoryAt + directorySize then
      let members ← entries.mapM (readMember inflate crc32 archive)
      return ⟨members, directoryAt, directorySize⟩
    else none
  else none

end

/-- Members that lie end to end between two offsets. -/
def Tiles : ℕ → List Member → ℕ → Prop
  | start, [], stop => start = stop
  | start, member :: members, stop => member.start = start ∧ Tiles member.stop members stop

/-! ### The names of a directory -/

def kEndRecord : ℕ := 22

def kCentralHeader : ℕ := 46

def kMaxEntries : ℕ := 65535

/-- The last position before `position`, and not before `floor`, of the signature of the end
record. -/
def findEnd (bytes : List UInt8) (floor : ℕ) : ℕ → Option ℕ
  | 0 => none
  | position + 1 =>
    if floor < position + 1 then
      if (bytes.drop position).take 4 = [0x50, 0x4b, 0x05, 0x06] then some position
      else findEnd bytes floor position
    else none

/-- The names of a number of entries from a position on, all before `stop`. -/
def namesFrom (bytes : List UInt8) (stop : ℕ) : ℕ → ℕ → Option (List (List UInt8))
  | 0, _ => some []
  | remaining + 1, position =>
    if stop < position + kCentralHeader
        ∨ (bytes.drop position).take 4 ≠ [0x50, 0x4b, 0x01, 0x02] then
      none
    else
      let nameLength := (le16 bytes (position + 28)).toNat
      let skip := nameLength + (le16 bytes (position + 30)).toNat
        + (le16 bytes (position + 32)).toNat
      if stop < position + kCentralHeader + nameLength then none
      else
        (namesFrom bytes stop remaining (position + (kCentralHeader + skip))).map
          (((bytes.drop (position + kCentralHeader)).take nameLength) :: ·)

/-- `zip_central_names`. -/
def zipCentralNames (bytes : List UInt8) : Option (List (List UInt8)) :=
  if bytes.length < kEndRecord then none
  else
    let floor := if kEndRecord + 65535 < bytes.length then bytes.length - kEndRecord - 65535 else 0
    match findEnd bytes floor (bytes.length - kEndRecord + 1) with
    | none => none
    | some stop =>
      let entries := (le16 bytes (stop + 10)).toNat
      let directorySize := (le32 bytes (stop + 12)).toNat
      let directoryAt := (le32 bytes (stop + 16)).toNat
      if directoryAt = 0xffffffff ∨ stop < directoryAt + directorySize then none
      else namesFrom bytes stop (min entries kMaxEntries) directoryAt

variable {rawDeflate : List UInt8 → Option (List UInt8)} {crc32 : List UInt8 → UInt32}
  {inflate : List UInt8 → Option (List UInt8)}

/-! ### Reading what was written -/

@[simp]
theorem drop_put16_append (value : UInt16) (bytes : List UInt8) (n : ℕ) :
  (put16 value ++ bytes).drop (n + 2) = bytes.drop n
  := rfl

@[simp]
theorem drop_put32_append (value : UInt32) (bytes : List UInt8) (n : ℕ) :
  (put32 value ++ bytes).drop (n + 4) = bytes.drop n
  := rfl

section

variable (fields : HeaderFields) (bytes : List UInt8) (n : ℕ)

@[simp]
theorem drop_put_append :
  (fields.put ++ bytes).drop (n + 26) = bytes.drop n
  := rfl

@[simp]
theorem le16_put_append :
  le16 (fields.put ++ bytes) (n + 26) = le16 bytes n
  := by
  rw [Nat.add_comm, le16_append _ (length_put fields)]

@[simp]
theorem le32_put_append :
  le32 (fields.put ++ bytes) (n + 26) = le32 bytes n
  := by
  rw [Nat.add_comm, le32_append _ (length_put fields)]

@[simp]
theorem le16_put_nameLength :
  le16 (fields.put ++ bytes) 22 = fields.nameLength.toUInt32
  := by
  simp [HeaderFields.put]

@[simp]
theorem le16_put_extraLength :
  le16 (fields.put ++ bytes) 24 = 0
  := by
  simp [HeaderFields.put]

end

variable (rawDeflate crc32) in
/-- What the headers of a file are read as. -/
def headerOf (file : BundleFile) : MemberHeader where
  method := (payloadOf rawDeflate file.bytes).method.toUInt32
  crc := crc32 file.bytes
  compressed := .ofNat (payloadOf rawDeflate file.bytes).bytes.length
  uncompressed := .ofNat file.bytes.length
  name := file.path

variable (rawDeflate crc32) in
/-- What the entry of a file is read as, with the member at an offset. -/
def entryOf (offset : ℕ) (file : BundleFile) : Entry :=
  ⟨headerOf rawDeflate crc32 file, offset⟩

variable (rawDeflate crc32) in
/-- What a file is read as, with the member at an offset. -/
def memberOf (offset : ℕ) (file : BundleFile) : Member where
  start := offset
  stop := offset + memberSize rawDeflate file
  centralHeader := headerOf rawDeflate crc32 file
  localHeader := headerOf rawDeflate crc32 file
  bytes := file.bytes

variable (rawDeflate) in
/-- Something of each file, from the offset of its member. -/
def eachFrom {α : Type} (f : ℕ → BundleFile → α) : ℕ → List BundleFile → List α
  | _, [] => []
  | offset, file :: files => f offset file :: eachFrom f (offset + memberSize rawDeflate file) files

theorem nameLength_fieldsOf {file : BundleFile} (h : FileFits rawDeflate file) :
  (fieldsOf rawDeflate crc32 file).nameLength.toNat = file.path.length
  := by
  have := h.name
  simp [fieldsOf]
  omega

theorem readHeader_put {file : BundleFile} (h : FileFits rawDeflate file) (rest rest' : List UInt8) :
  readHeader ((fieldsOf rawDeflate crc32 file).put ++ rest) (file.path ++ rest')
    = headerOf rawDeflate crc32 file
  := by
  have hname := @nameLength_fieldsOf _ crc32 _ h
  simp only [readHeader, le16_put_nameLength, UInt16.toNat_toUInt32, hname,
    take_left]
  simp [HeaderFields.put, fieldsOf, headerOf]

/-- The entry of a file is read. -/
theorem readEntry_centralRecord {file : BundleFile} {offset : ℕ} (h : FileFits rawDeflate file)
    (hoffset : offset < 0xffffffff) (rest : List UInt8) :
  readEntry (centralRecord (fieldsOf rawDeflate crc32 file) file.path (.ofNat offset) ++ rest)
    = some (entryOf rawDeflate crc32 offset file, 46 + file.path.length)
  := by
  simp [readEntry, centralRecord, readHeader_put h, nameLength_fieldsOf h, entryOf]
  omega

theorem readPayload_payloadOf (hinflate : ∀ data compressed, rawDeflate data = some compressed →
      inflate compressed = some data) (data : List UInt8) :
  readPayload inflate (payloadOf rawDeflate data).method.toUInt32 (payloadOf rawDeflate data).bytes
    = some data
  := by
  unfold payloadOf
  split
  case h_1 => simp [readPayload]
  case h_2 compressed hcompressed =>
    split
    case isTrue => simp [readPayload, kMethodDeflate, kMethodStored, hinflate _ _ hcompressed]
    case isFalse => simp [readPayload]

/-- The payload stands behind the header and the name. -/
theorem drop_localRecord (fields : HeaderFields) (path payload rest : List UInt8) :
  (localRecord fields path payload ++ rest).drop (30 + path.length) = payload ++ rest
  := by
  have h : (put32 kLocalHeaderSignature ++ fields.put ++ path).length = 30 + path.length := by
    simp
    omega
  rw [← @drop_left' _ _ (payload ++ rest) _ h]
  simp [localRecord]

variable {archive rest : List UInt8}

/-- The member of a file is read where it is. -/
theorem readMember_localRecord (hinflate : ∀ data compressed, rawDeflate data = some compressed →
      inflate compressed = some data) {file : BundleFile} {offset : ℕ}
    (h : FileFits rawDeflate file)
    (hdrop : archive.drop offset = localRecord (fieldsOf rawDeflate crc32 file) file.path
      (payloadOf rawDeflate file.bytes).bytes ++ rest) :
  readMember inflate crc32 archive (entryOf rawDeflate crc32 offset file)
    = some (memberOf rawDeflate crc32 offset file)
  := by
  have hsize := h.size
  have hlength := @length_payloadOf_le rawDeflate file.bytes
  have hcompressed : (headerOf rawDeflate crc32 file).compressed.toNat
      = (payloadOf rawDeflate file.bytes).bytes.length := by
    simp [headerOf]
    omega
  have huncompressed : (headerOf rawDeflate crc32 file).uncompressed.toNat = file.bytes.length := by
    simp [headerOf]
    omega
  have hpayload := drop_localRecord (fieldsOf rawDeflate crc32 file) file.path
    (payloadOf rawDeflate file.bytes).bytes rest
  have hread : readPayload inflate (headerOf rawDeflate crc32 file).method
      (payloadOf rawDeflate file.bytes).bytes = some file.bytes :=
    readPayload_payloadOf hinflate file.bytes
  simp only [readMember, entryOf, hdrop]
  simp [localRecord] at hpayload ⊢
  simp [readHeader_put h, nameLength_fieldsOf h, hcompressed, huncompressed, hpayload, hread,
    memberOf, memberSize, Nat.add_assoc]
  rfl

variable {files : List BundleFile}

/-- The directory is read to the entries of the files. -/
theorem readDirectory_directoryFrom {offset position : ℕ}
    (h : ∀ file ∈ files, FileFits rawDeflate file)
    (hbody : offset + bodySize rawDeflate files < 0xffffffff)
    (hdrop : archive.drop position = directoryFrom rawDeflate crc32 offset files ++ rest) :
  readDirectory archive files.length position
    = some (eachFrom rawDeflate (entryOf rawDeflate crc32) offset files,
        position + directorySize files)
  := by
  induction files generalizing offset position with
  | nil => rfl
  | cons file files ih =>
    obtain ⟨hfile, hfiles⟩ := forall_mem_cons.mp h
    rw [bodySize_cons] at hbody
    rw [directoryFrom, append_assoc] at hdrop
    have hnext : archive.drop (position + (46 + file.path.length))
        = directoryFrom rawDeflate crc32 (offset + memberSize rawDeflate file) files ++ rest := by
      rw [← drop_drop, hdrop, ← length_centralRecord, drop_left]
    rw [length_cons, readDirectory, hdrop, readEntry_centralRecord hfile (by omega)]
    simp [ih hfiles (by omega) hnext, eachFrom]
    omega

theorem mapM_readMember (hinflate : ∀ data compressed, rawDeflate data = some compressed →
      inflate compressed = some data) {offset : ℕ} (h : ∀ file ∈ files, FileFits rawDeflate file)
    (hdrop : archive.drop offset = bodyOf rawDeflate crc32 files ++ rest) :
  (eachFrom rawDeflate (entryOf rawDeflate crc32) offset files).mapM
      (readMember inflate crc32 archive)
    = some (eachFrom rawDeflate (memberOf rawDeflate crc32) offset files)
  := by
  induction files generalizing offset with
  | nil => rfl
  | cons file files ih =>
    obtain ⟨hfile, hfiles⟩ := forall_mem_cons.mp h
    rw [bodyOf, flatMap_cons, append_assoc] at hdrop
    have hnext : archive.drop (offset + memberSize rawDeflate file)
        = bodyOf rawDeflate crc32 files ++ rest := by
      rw [← drop_drop, hdrop, ← @length_memberRecord _ crc32, drop_left]
      rfl
    rw [eachFrom, mapM_cons, readMember_localRecord hinflate hfile hdrop]
    simp [ih hfiles hnext, eachFrom]

theorem tiles_eachFrom (offset : ℕ) (files : List BundleFile) :
  Tiles offset (eachFrom rawDeflate (memberOf rawDeflate crc32) offset files)
    (offset + bodySize rawDeflate files)
  := by
  induction files generalizing offset with
  | nil => rfl
  | cons file files ih =>
    constructor
    · rfl
    · have h := ih (offset + memberSize rawDeflate file)
      rw [Nat.add_assoc] at h
      exact h

/-! ### The archive -/

theorem le16_drop (bytes : List UInt8) (position offset : ℕ) :
  le16 (bytes.drop position) offset = le16 bytes (position + offset)
  := by
  simp [le16, getD_eq_getElem?_getD, Nat.add_assoc]

theorem le32_drop (bytes : List UInt8) (position offset : ℕ) :
  le32 (bytes.drop position) offset = le32 bytes (position + offset)
  := by
  simp [le32, le16_drop, Nat.add_assoc]

/-- The parts of an archive that was written, each behind those before it. -/
theorem length_archiveOf (files : List BundleFile) :
  (archiveOf rawDeflate crc32 files).length = bodySize rawDeflate files
    + directorySize files + 22
  := by
  simp only [archiveOf, length_append, length_bodyOf, length_directoryFrom, length_endOf]
  omega

theorem drop_directory (files : List BundleFile) :
  (archiveOf rawDeflate crc32 files).drop (bodySize rawDeflate files)
    = directoryFrom rawDeflate crc32 0 files ++ endOf rawDeflate files
  := by
  rw [archiveOf, ← @length_bodyOf _ crc32, drop_left]

theorem drop_endOf (files : List BundleFile) :
  (archiveOf rawDeflate crc32 files).drop (bodySize rawDeflate files
      + directorySize files)
    = endOf rawDeflate files
  := by
  rw [← drop_drop, drop_directory, ← @length_directoryFrom rawDeflate crc32 0,
    drop_left]

/-- The end record announces what it stands behind. -/
theorem fields_endOf (h : Fits rawDeflate files) :
  (le16 (endOf rawDeflate files) 10).toNat = files.length ∧
    (le32 (endOf rawDeflate files) 12).toNat = directorySize files ∧
    (le32 (endOf rawDeflate files) 16).toNat = bodySize rawDeflate files
  := by
  have hcount := h.count
  have hbody := h.body
  have hdirectory := h.directory
  simp [endOf, endRecord]
  omega

/-- The files are read from the archive that is written for them. -/
theorem readArchive_archiveOf (hinflate : ∀ data compressed, rawDeflate data = some compressed →
      inflate compressed = some data) (h : Fits rawDeflate files) :
  readArchive inflate crc32 (archiveOf rawDeflate crc32 files)
    = some ⟨eachFrom rawDeflate (memberOf rawDeflate crc32) 0 files, bodySize rawDeflate files,
        directorySize files⟩
  := by
  obtain ⟨hcount, hdirectory, hbody⟩ := fields_endOf h
  have hfits : 0 + bodySize rawDeflate files < 0xffffffff := by
    rw [Nat.zero_add]
    exact h.body
  have hentries := readDirectory_directoryFrom h.member hfits (@drop_directory _ crc32 files)
  have hmembers : (eachFrom rawDeflate (entryOf rawDeflate crc32) 0 files).mapM
      (readMember inflate crc32 (archiveOf rawDeflate crc32 files)) = _ :=
    mapM_readMember hinflate h.member rfl
  have hsignature : le32 (endOf rawDeflate files) 0 = kEndOfDirectorySignature := by
    simp [endOf, endRecord]
  simp only [readArchive, length_archiveOf, Nat.add_sub_cancel, drop_endOf, hsignature, hcount,
    hdirectory, hbody, hentries]
  simp [hmembers]

theorem findEnd_archiveOf (files : List BundleFile) (floor : ℕ) (hfloor : floor < (archiveOf rawDeflate crc32 files).length - kEndRecord + 1) :
  findEnd (archiveOf rawDeflate crc32 files) floor
      ((archiveOf rawDeflate crc32 files).length - kEndRecord + 1)
    = some (bodySize rawDeflate files
      + directorySize files)
  := by
  rw [findEnd, if_pos hfloor, length_archiveOf, kEndRecord, Nat.add_sub_cancel, drop_endOf]
  rfl

theorem namesFrom_directoryFrom {offset position stop : ℕ}
    (h : ∀ file ∈ files, FileFits rawDeflate file)
    (hstop : position + directorySize files ≤ stop)
    (hdrop : archive.drop position = directoryFrom rawDeflate crc32 offset files ++ rest) :
  namesFrom archive stop files.length position = some (files.map BundleFile.path)
  := by
  induction files generalizing offset position with
  | nil => rfl
  | cons file files ih =>
    obtain ⟨hfile, hfiles⟩ := forall_mem_cons.mp h
    rw [directorySize_cons] at hstop
    rw [directoryFrom, append_assoc] at hdrop
    have hnext : archive.drop (position + (46 + file.path.length))
        = directoryFrom rawDeflate crc32 (offset + memberSize rawDeflate file) files ++ rest := by
      rw [← drop_drop, hdrop, ← length_centralRecord, drop_left]
    have hih := ih hfiles (by omega) hnext
    simp only [length_cons, namesFrom, ← le16_drop, ← drop_drop, hdrop, kCentralHeader]
    simp [centralRecord, nameLength_fieldsOf hfile]
    exact ⟨⟨by omega, rfl⟩, by omega, hih⟩

/-- The paths are found in an archive that was written. -/
theorem zipCentralNames_archiveOf (h : Fits rawDeflate files) :
  zipCentralNames (archiveOf rawDeflate crc32 files) = some (files.map BundleFile.path)
  := by
  have hlength := @length_archiveOf rawDeflate crc32 files
  obtain ⟨hentries, hdirectory, hbody⟩ := fields_endOf h
  have hcount := h.count
  have hsentinel := h.body
  have hmin : min files.length kMaxEntries = files.length := min_eq_left (by rw [kMaxEntries]; omega)
  have hfloor : (if kEndRecord + 65535 < (archiveOf rawDeflate crc32 files).length then (archiveOf rawDeflate crc32 files).length - kEndRecord - 65535 else 0) < (archiveOf rawDeflate crc32 files).length - kEndRecord + 1 := by
    split <;> omega
  have hnames := namesFrom_directoryFrom h.member le_rfl (@drop_directory _ crc32 files)
  rw [zipCentralNames, if_neg (by rw [kEndRecord]; omega)]
  simp only [findEnd_archiveOf files _ hfloor]
  simp only [← le16_drop, ← le32_drop, drop_endOf, hentries, hdirectory, hbody, hmin, hnames]
  rw [if_neg (by omega)]

theorem contents_eachFrom (offset : ℕ) (files : List BundleFile) :
  (eachFrom rawDeflate (memberOf rawDeflate crc32) offset files).map
      (fun member => ⟨member.localHeader.name, member.bytes⟩) = files
  := by
  induction files generalizing offset with
  | nil => rfl
  | cons file files ih => simp [eachFrom, memberOf, headerOf, ih]

theorem headers_eachFrom {offset : ℕ} {member : Member}
    (h : member ∈ eachFrom rawDeflate (memberOf rawDeflate crc32) offset files) :
  member.localHeader = member.centralHeader
  := by
  induction files generalizing offset with
  | nil => cases h
  | cons file files ih =>
    rcases mem_cons.mp h with rfl | h
    · rfl
    · exact ih h

/-- An archive that is written is read back to its files: the members lie end to end before the
directory, each with one header in both places, and the directory before the end record; the
paths are the names found in it.  What does not fit the fields is refused, and nothing else. -/
theorem writeZip_reads (rawDeflate inflate : List UInt8 → Option (List UInt8))
    (crc32 : List UInt8 → UInt32)
    (hinflate : ∀ data compressed, rawDeflate data = some compressed →
      inflate compressed = some data) (files : List BundleFile) :
  (∀ archive, writeZip rawDeflate crc32 files = .ok archive →
    (∃ reading, readArchive inflate crc32 archive = some reading ∧
      reading.members.map (fun member => ⟨member.localHeader.name, member.bytes⟩) = files ∧
      (∀ member ∈ reading.members, member.localHeader = member.centralHeader) ∧
      Tiles 0 reading.members reading.directoryAt ∧
      reading.directoryAt + reading.directorySize + 22 = archive.length) ∧
    zipCentralNames archive = some (files.map BundleFile.path)) ∧
  (Fits rawDeflate files → ∃ archive, writeZip rawDeflate crc32 files = .ok archive) ∧
  (¬ Fits rawDeflate files → ∃ message, writeZip rawDeflate crc32 files = .error message)
  := by
  refine ⟨?_, ?_, ?_⟩
  · intro archive hok
    have h := writeZip_ok hok
    rw [writeZip_eq_ok h] at hok
    cases hok
    refine ⟨⟨_, readArchive_archiveOf hinflate h, contents_eachFrom _ _, ?_, ?_, ?_⟩,
      zipCentralNames_archiveOf h⟩
    · intro member
      apply headers_eachFrom
    · have htiles := @tiles_eachFrom rawDeflate crc32 0 files
      rw [Nat.zero_add] at htiles
      exact htiles
    · rw [length_archiveOf]
  · intro h
    exact ⟨_, writeZip_eq_ok h⟩
  · intro h
    cases hwritten : writeZip rawDeflate crc32 files with
    | error message => exact ⟨message, rfl⟩
    | ok archive => exact absurd (writeZip_ok hwritten) h

/-- The raw deflate of the byte of `a`, which has three bytes. -/
def deflateA (data : List UInt8) : Option (List UInt8) :=
  if data = [0x61] then some [0x4b, 0x04, 0x00] else none

def inflateA (compressed : List UInt8) : Option (List UInt8) :=
  if compressed = [0x4b, 0x04, 0x00] then some [0x61] else none

def crcA (data : List UInt8) : UInt32 :=
  if data = [0x61] then 0xe8b7be43 else 0

theorem writeZip_reads_oneFile :
  ∃ archive reading, writeZip deflateA crcA [⟨[0x62], [0x61]⟩] = .ok archive ∧
    archive.length = 101 ∧ readArchive inflateA crcA archive = some reading ∧
    reading.members.map (fun member => ⟨member.localHeader.name, member.bytes⟩)
      = [(⟨[0x62], [0x61]⟩ : BundleFile)] ∧
    Tiles 0 reading.members reading.directoryAt ∧ zipCentralNames archive = some [[0x62]]
  := by
  have hinflate : ∀ data compressed, deflateA data = some compressed →
      inflateA compressed = some data := by
    intro data compressed h
    unfold deflateA at h
    split at h
    case isTrue hdata =>
      cases h
      rw [hdata]
      rfl
    case isFalse => cases h
  have hfits : Fits deflateA [⟨[0x62], [0x61]⟩] := by
    constructor
    · decide
    · intro file hfile
      obtain rfl := List.mem_singleton.mp hfile
      exact ⟨by decide, by decide, fun _ => rfl⟩
    · decide
    · decide
  obtain ⟨hreads, hwrites, -⟩ :=
    writeZip_reads deflateA inflateA crcA hinflate [⟨[0x62], [0x61]⟩]
  obtain ⟨archive, harchive⟩ := hwrites hfits
  obtain ⟨⟨reading, hreading, hfiles, -, htiles, hlength⟩, hnames⟩ := hreads archive harchive
  refine ⟨archive, reading, harchive, ?_, hreading, hfiles, htiles, hnames⟩
  rw [writeZip_eq_ok hfits] at harchive
  cases harchive
  rfl

end GRParse.Zip
