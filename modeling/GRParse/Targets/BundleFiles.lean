import GRParse.Targets.BundleManifest
import GRParse.Targets.BundleOrder

/-!
# The files of a bundle

No two files of a bundle have one path, so that sorting leaves one order.  The manifest lists the
other files in that order.  The files of the pages, and of the pictures, are in the order of their
numbers just when `PaddedInOrder` holds between these.
-/

namespace GRParse.Bundles

open Codec Containers Digits Json Render Sorting List
open Zip (BundleFile)

/-! ### Names are different -/

theorem dot_notMem_padded (number : ℤ) :
  0x2e ∉ key (padded number)
  := by
  have hsymbols : ∀ digits : List ℕ, 0x2e ∉ digits.map (0x30 + ·) := by
    intro digits hmem
    obtain ⟨digit, -, hdigit⟩ := mem_map.mp hmem
    omega
  rcases lt_or_ge number 0 with h | h
  · obtain ⟨m, rfl⟩ : ∃ m : ℕ, number = -m := ⟨number.natAbs, by omega⟩
    rw [key_padded_neg (by omega)]
    intro hmem
    rcases mem_append.mp hmem with hzero | hmem
    · cases eq_of_mem_replicate hzero
    · rcases mem_cons.mp hmem with hsign | hmem
      · cases hsign
      · exact hsymbols _ hmem
  · obtain ⟨n, rfl⟩ := Int.eq_ofNat_of_zero_le h
    rw [key_padded_natCast]
    exact hsymbols _

/-- What is left of a negative number from its sign on. -/
theorem dropWhile_padded_neg {number : ℕ} (h : 0 < number) :
  (key (padded (-number))).dropWhile (· ≠ 0x2d) = 0x2d :: (digitsOf number).map (0x30 + ·)
  := by
  rw [key_padded_neg h, dropWhile_append_of_pos]
  · rfl
  · intro symbol hsymbol
    rw [eq_of_mem_replicate hsymbol]
    rfl

theorem dropWhile_padded_natCast (number : ℕ) :
  (key (padded number)).dropWhile (· ≠ 0x2d) = []
  := by
  rw [key_padded_natCast, dropWhile_eq_nil_iff]
  intro symbol hsymbol
  obtain ⟨digit, -, rfl⟩ := mem_map.mp hsymbol
  simp only [decide_eq_true_eq]
  omega

theorem key_padded_injective {a b : ℤ} (h : key (padded a) = key (padded b)) :
  a = b
  := by
  have hsymbol := map_injective_iff.mpr strictMono_symbol.injective
  have hsign := congrArg (dropWhile (· ≠ 0x2d)) h
  rcases lt_or_ge a 0 with ha | ha
  · obtain ⟨m, rfl⟩ : ∃ m : ℕ, a = -m := ⟨a.natAbs, by omega⟩
    rw [dropWhile_padded_neg (by omega)] at hsign
    rcases lt_or_ge b 0 with hb | hb
    · obtain ⟨n, rfl⟩ : ∃ n : ℕ, b = -n := ⟨b.natAbs, by omega⟩
      rw [dropWhile_padded_neg (by omega)] at hsign
      have hvalue := congrArg (value 10) (hsymbol (cons.inj hsign).2)
      rw [value_digitsOf, value_digitsOf] at hvalue
      rw [hvalue]
    · obtain ⟨n, rfl⟩ := Int.eq_ofNat_of_zero_le hb
      rw [dropWhile_padded_natCast] at hsign
      cases hsign
  · obtain ⟨m, rfl⟩ := Int.eq_ofNat_of_zero_le ha
    rw [dropWhile_padded_natCast] at hsign
    rcases lt_or_ge b 0 with hb | hb
    · obtain ⟨n, rfl⟩ : ∃ n : ℕ, b = -n := ⟨b.natAbs, by omega⟩
      rw [dropWhile_padded_neg (by omega)] at hsign
      cases hsign
    · obtain ⟨n, rfl⟩ := Int.eq_ofNat_of_zero_le hb
      rw [key_padded_natCast, key_padded_natCast] at h
      have hvalue := congrArg (value 10) (hsymbol h)
      rw [value_paddedDigits, value_paddedDigits] at hvalue
      rw [hvalue]

/-- The number of a file is told by its name. -/
theorem numbered_injective {directory stem extension extension' : List UInt8} {a b : ℤ}
    (h : numbered directory stem a extension = numbered directory stem b extension') :
  a = b
  := by
  have hkey := congrArg key h
  simp only [numbered, key_append, append_assoc, append_cancel_left_eq] at hkey
  apply key_padded_injective
  have htake := congrArg (takeWhile (· ≠ 0x2e)) hkey
  have hname : ∀ (number : ℤ) (rest : List ℕ),
      (key (padded number) ++ (key (bytesOf ".") ++ rest)).takeWhile (· ≠ 0x2e) =
        key (padded number) := by
    intro number rest
    rw [takeWhile_append_of_pos]
    · exact append_nil _
    · intro symbol hsymbol
      simp only [decide_eq_true_eq]
      rintro rfl
      exact dot_notMem_padded number hsymbol
  rwa [hname, hname] at htake

/-! ### Numbers -/

/-- Elements that go over into ones with the same key. -/
theorem map_filterMap_sublist {α β κ : Type} {f : α → Option β} {k : α → κ} {k' : β → κ}
    (h : ∀ a b, f a = some b → k' b = k a) (l : List α) :
  ((l.filterMap f).map k').Sublist (l.map k)
  := by
  induction l with
  | nil => exact .slnil
  | cons a l ih =>
    rw [map_cons, filterMap_cons]
    cases hfa : f a with
    | none => exact ih.cons _
    | some b =>
      rw [map_cons, h a b hfa]
      exact ih.cons_cons _

section

variable (kernel : Kernel) (document : Document)

/-- The numbers of the page images increase. -/
theorem pairwise_pageImages :
  ((pageImages kernel document).map Prod.fst).Pairwise (· < ·)
  := by
  have hsorted : ((document.pages.keys.sort (· ≤ ·)).map id).Pairwise (· < ·) := by
    rw [map_id]
    exact (Finset.sortedLT_sort _).pairwise
  refine hsorted.sublist (map_filterMap_sublist ?_ _)
  intro pageNo image himage
  obtain ⟨reference, -, himage⟩ := Option.bind_eq_some_iff.mp himage
  obtain ⟨decoded, -, rfl⟩ := Option.map_eq_some_iff.mp himage
  rfl

/-- The numbers of the picture images increase. -/
theorem pairwise_pictureImages :
  ((pictureImages kernel document).map Prod.fst).Pairwise (· < ·)
  := by
  have hsorted : (document.pictures.zipIdx.map fun entry => (entry.2 : ℤ) + 1).Pairwise
      (· < ·) := by
    have hmap : (document.pictures.zipIdx.map fun entry => (entry.2 : ℤ) + 1) =
        (document.pictures.zipIdx.map Prod.snd).map fun index : ℕ => (index : ℤ) + 1 := by
      rw [map_map]
      rfl
    rw [hmap, zipIdx_map_snd, pairwise_map]
    exact (pairwise_lt_range' 1).imp fun h => by omega
  refine hsorted.sublist (map_filterMap_sublist ?_ _)
  rintro ⟨picture, index⟩ image himage
  obtain ⟨reference, -, himage⟩ := Option.bind_eq_some_iff.mp himage
  obtain ⟨decoded, -, rfl⟩ := Option.map_eq_some_iff.mp himage
  rfl

end

/-- Files with increasing numbers are sorted just when these are in order. -/
theorem pairwise_imageFile_iff (directory stem : String) {images : List (ℤ × DecodedImage)}
    (h : (images.map Prod.fst).Pairwise (· < ·)) :
  ((images.map (imageFile directory stem)).map pathKey).Pairwise (· < ·) ↔
    (images.map Prod.fst).Pairwise PaddedInOrder
  := by
  rw [pairwise_map, pairwise_map, pairwise_map]
  rw [pairwise_map] at h
  constructor
  · intro hsorted
    refine hsorted.imp₂ (fun a b hkey hlt => ?_) h
    exact (numbered_lt_iff _ _ hlt _ _).mp hkey
  · intro horder
    refine horder.imp₂ (fun a b hpadded hlt => ?_) h
    exact (numbered_lt_iff _ _ hlt _ _).mpr hpadded

/-! ### Where files belong -/

/-- What the paths of a kind of files begin with. -/
def begins (start : String) (file : BundleFile) : Bool :=
  (bytesOf start).isPrefixOf file.path

def isPage : BundleFile → Bool :=
  begins "pages/"

def isPicture : BundleFile → Bool :=
  begins "pictures/"

section

variable (kernel : Kernel) (document : Document)

def pageFiles : List BundleFile :=
  (pageImages kernel document).map (imageFile "pages" "page")

def pictureFiles : List BundleFile :=
  (pictureImages kernel document).map (imageFile "pictures" "pic")

end

/-- The first two bytes of a path, which tell the kinds of files apart. -/
def mark (file : BundleFile) : List UInt8 :=
  file.path.take 2

theorem mark_imageFile (directory stem : String) (image : ℤ × DecodedImage)
    (h : 2 ≤ (bytesOf directory).length) :
  mark (imageFile directory stem image) = (bytesOf directory).take 2
  := by
  rw [mark, imageFile, numbered]
  simp only [append_assoc]
  exact take_append_of_le_length h

theorem exists_exportMember {exports : DocumentExports} {file : BundleFile}
    (h : file ∈ exportFiles exports) :
  ∃ path ∈ (exportMembers exports).map Prod.fst, file.path = bytesOf path
  := by
  obtain ⟨⟨path, value⟩, hmember, hfile⟩ := mem_filterMap.mp h
  obtain ⟨bytes, -, rfl⟩ := Option.map_eq_some_iff.mp hfile
  exact ⟨path, mem_map_of_mem hmember, rfl⟩

theorem mark_exportFile {exports : DocumentExports} {file : BundleFile}
    (h : file ∈ exportFiles exports) :
  mark file = bytesOf "ex"
  := by
  obtain ⟨path, hpath, hfile⟩ := exists_exportMember h
  have hall : (exportMembers exports).map Prod.fst = (exportMembers {}).map Prod.fst := rfl
  have hmark : ∀ path ∈ (exportMembers {}).map Prod.fst, (bytesOf path).take 2 = bytesOf "ex" := by
    decide
  rw [mark, hfile]
  exact hmark path (hall ▸ hpath)

theorem nodup_exportFiles (exports : DocumentExports) :
  ((exportFiles exports).map BundleFile.path).Nodup
  := by
  have hall : ((exportMembers exports).map fun member => bytesOf member.1).Nodup := by
    have : ((exportMembers exports).map fun member => bytesOf member.1) =
        (exportMembers {}).map fun member => bytesOf member.1 := rfl
    rw [this]
    decide
  refine hall.sublist (map_filterMap_sublist ?_ _)
  rintro ⟨path, value⟩ file hfile
  obtain ⟨bytes, -, rfl⟩ := Option.map_eq_some_iff.mp hfile
  rfl

theorem nodup_imageFiles (directory stem : String) {images : List (ℤ × DecodedImage)}
    (h : (images.map Prod.fst).Pairwise (· < ·)) :
  ((images.map (imageFile directory stem)).map BundleFile.path).Nodup
  := by
  rw [pairwise_map] at h
  rw [map_map, List.Nodup, pairwise_map]
  exact h.imp fun hlt heq => hlt.ne (numbered_injective heq)

/-- Files of two kinds. -/
theorem nodup_append_of_mark {files others : List BundleFile}
    (hfiles : (files.map BundleFile.path).Nodup) (hothers : (others.map BundleFile.path).Nodup)
    (h : ∀ file ∈ files, ∀ other ∈ others, mark file ≠ mark other) :
  ((files ++ others).map BundleFile.path).Nodup
  := by
  rw [map_append]
  apply hfiles.append hothers
  intro path hpath hpath'
  obtain ⟨file, hfile, rfl⟩ := mem_map.mp hpath
  obtain ⟨other, hother, heq⟩ := mem_map.mp hpath'
  exact h file hfile other hother (congrArg (take 2) heq.symm)

section

variable (kernel : Kernel) (document : Document) (exports : DocumentExports)
  (encoded rendered : List UInt8)

theorem mark_pageFiles :
  ∀ file ∈ pageFiles kernel document, mark file = bytesOf "pa"
  := by
  intro file hfile
  obtain ⟨image, -, rfl⟩ := mem_map.mp hfile
  exact mark_imageFile "pages" "page" image (by decide)

theorem mark_pictureFiles :
  ∀ file ∈ pictureFiles kernel document, mark file = bytesOf "pi"
  := by
  intro file hfile
  obtain ⟨image, -, rfl⟩ := mem_map.mp hfile
  exact mark_imageFile "pictures" "pic" image (by decide)

/-- The files that are neither of pages nor of pictures. -/
def plainFiles : List BundleFile :=
  [⟨bytesOf "document.pb", encoded⟩, ⟨bytesOf "document.json", rendered⟩] ++ exportFiles exports

theorem gathered_eq :
  gathered kernel document exports encoded rendered =
    plainFiles exports encoded rendered ++ pageFiles kernel document ++
      pictureFiles kernel document
  := rfl

theorem mark_plainFiles :
  ∀ file ∈ plainFiles exports encoded rendered,
    mark file = bytesOf "do" ∨ mark file = bytesOf "ex"
  := by
  intro file hfile
  rcases mem_append.mp hfile with hdocument | hexport
  · left
    rcases mem_pair.mp hdocument with rfl | rfl
    · rfl
    · rfl
  · exact .inr (mark_exportFile hexport)

theorem nodup_plainFiles :
  ((plainFiles exports encoded rendered).map BundleFile.path).Nodup
  := by
  refine nodup_append_of_mark ?_ (nodup_exportFiles exports) ?_
  · show [bytesOf "document.pb", bytesOf "document.json"].Nodup
    decide
  · intro file hfile other hother
    rw [mark_exportFile hother]
    rcases mem_pair.mp hfile with rfl | rfl
    · show (bytesOf "document.pb").take 2 ≠ bytesOf "ex"
      decide
    · show (bytesOf "document.json").take 2 ≠ bytesOf "ex"
      decide

/-- No two of the files that are gathered have one path, and none has that of the manifest. -/
theorem nodup_gathered :
  ((gathered kernel document exports encoded rendered).map BundleFile.path).Nodup
  := by
  rw [gathered_eq]
  refine nodup_append_of_mark (nodup_append_of_mark (nodup_plainFiles _ _ _)
    (nodup_imageFiles _ _ (pairwise_pageImages _ _)) ?_)
    (nodup_imageFiles _ _ (pairwise_pictureImages _ _)) ?_
  · intro file hfile other hother
    rw [mark_pageFiles _ _ other hother]
    rcases mark_plainFiles _ _ _ file hfile with h | h <;> rw [h] <;> decide
  · intro file hfile other hother
    rw [mark_pictureFiles _ _ other hother]
    rcases mem_append.mp hfile with hfile | hfile
    · rcases mark_plainFiles _ _ _ file hfile with h | h <;> rw [h] <;> decide
    · rw [mark_pageFiles _ _ file hfile]
      decide

theorem mark_gathered :
  ∀ file ∈ gathered kernel document exports encoded rendered, mark file ≠ bytesOf "ma"
  := by
  intro file hfile
  rw [gathered_eq] at hfile
  rcases mem_append.mp hfile with hfile | hfile
  · rcases mem_append.mp hfile with hfile | hfile
    · rcases mark_plainFiles _ _ _ file hfile with h | h <;> rw [h] <;> decide
    · rw [mark_pageFiles _ _ file hfile]
      decide
  · rw [mark_pictureFiles _ _ file hfile]
    decide

/-- Files whose paths begin with more than their mark. -/
theorem mark_of_begins {start : String} {file : BundleFile} (h : begins start file)
    (hlong : 2 ≤ (bytesOf start).length) :
  mark file = (bytesOf start).take 2
  := by
  obtain ⟨rest, hrest⟩ := isPrefixOf_iff_prefix.mp h
  rw [mark, ← hrest, take_append_of_le_length hlong]

theorem begins_imageFile (directory stem start : String) (image : ℤ × DecodedImage)
    (h : bytesOf start = bytesOf directory ++ bytesOf "/") :
  begins start (imageFile directory stem image)
  := by
  rw [begins, isPrefixOf_iff_prefix, h]
  simp only [imageFile, numbered, append_assoc]
  rw [← append_assoc]
  exact prefix_append _ _

/-- The files of the pages among all. -/
theorem filter_isPage_gathered :
  (gathered kernel document exports encoded rendered).filter isPage = pageFiles kernel document
  := by
  have hmark : ∀ file, isPage file → mark file = bytesOf "pa" :=
    fun file h => mark_of_begins h (by decide)
  have hplain : (plainFiles exports encoded rendered).filter isPage = [] := by
    rw [filter_eq_nil_iff]
    intro file hfile hpage
    have := mark_plainFiles _ _ _ file hfile
    rw [hmark file hpage] at this
    revert this
    decide
  have hpictures : (pictureFiles kernel document).filter isPage = [] := by
    rw [filter_eq_nil_iff]
    intro file hfile hpage
    have := mark_pictureFiles _ _ file hfile
    rw [hmark file hpage] at this
    revert this
    decide
  have hpages : (pageFiles kernel document).filter isPage = pageFiles kernel document := by
    rw [filter_eq_self]
    intro file hfile
    obtain ⟨image, -, rfl⟩ := mem_map.mp hfile
    exact begins_imageFile _ _ _ _ (by decide)
  rw [gathered_eq, filter_append, filter_append, hplain, hpages, hpictures,
    nil_append, append_nil]

/-- The files of the pictures among all. -/
theorem filter_isPicture_gathered :
  (gathered kernel document exports encoded rendered).filter isPicture =
    pictureFiles kernel document
  := by
  have hmark : ∀ file, isPicture file → mark file = bytesOf "pi" :=
    fun file h => mark_of_begins h (by decide)
  have hplain : (plainFiles exports encoded rendered ++ pageFiles kernel document).filter
      isPicture = [] := by
    rw [filter_eq_nil_iff]
    intro file hfile hpicture
    have hfirst := hmark file hpicture
    rcases mem_append.mp hfile with hfile | hfile
    · have := mark_plainFiles _ _ _ file hfile
      rw [hfirst] at this
      revert this
      decide
    · have := mark_pageFiles _ _ file hfile
      rw [hfirst] at this
      revert this
      decide
  have hpictures : (pictureFiles kernel document).filter isPicture =
      pictureFiles kernel document := by
    rw [filter_eq_self]
    intro file hfile
    obtain ⟨image, -, rfl⟩ := mem_map.mp hfile
    exact begins_imageFile _ _ _ _ (by decide)
  rw [gathered_eq, filter_append, hplain, hpictures, nil_append]

end

/-! ### A sorted list and one more file -/

theorem pathKey_injective {file other : BundleFile} (h : pathKey file = pathKey other) :
  file.path = other.path
  := map_injective_iff.mpr (fun _ _ => UInt8.toNat_inj.mp) h

/-- Files with different paths are strictly sorted. -/
theorem pairwise_lt_sortOn {files : List BundleFile} (h : (files.map BundleFile.path).Nodup) :
  (sortOn pathKey files).Pairwise fun file other => pathKey file < pathKey other
  := by
  have hnodup : (sortOn pathKey files).Pairwise fun file other => file.path ≠ other.path := by
    rw [← pairwise_map (R := (· ≠ ·))]
    exact (((sortOn_perm pathKey files).map _).nodup_iff).mpr h
  exact (pairwise_sortOn pathKey files).imp₂
    (fun file other hle hne => lt_of_le_of_ne hle fun heq => hne (pathKey_injective heq)) hnodup

section

variable {file : BundleFile} {files : List BundleFile}

theorem insertFile_perm :
  (insertFile file files).Perm (file :: files)
  := by
  rw [insertFile]
  apply perm_middle.trans
  rw [takeWhile_append_dropWhile]

/-- A file is inserted where its path belongs. -/
theorem pairwise_insertFile (h : files.Pairwise fun file other => pathKey file < pathKey other)
    (hnew : ∀ other ∈ files, other.path ≠ file.path) :
  (insertFile file files).Pairwise fun file other => pathKey file < pathKey other
  := by
  induction files with
  | nil => exact pairwise_singleton ..
  | cons other files ih =>
    obtain ⟨hother, hfiles⟩ := pairwise_cons.mp h
    obtain ⟨hne, hnew⟩ := forall_mem_cons.mp hnew
    rw [insertFile]
    by_cases hle : pathKey other ≤ pathKey file
    · have hlt := lt_of_le_of_ne hle fun heq => hne (pathKey_injective heq)
      rw [takeWhile_cons_of_pos (by simpa using hle),
        dropWhile_cons_of_pos (by simpa using hle), cons_append]
      refine pairwise_cons.mpr ⟨?_, ih hfiles hnew⟩
      intro third hthird
      have hmem : third ∈ file :: files := insertFile_perm.mem_iff.mp hthird
      rcases mem_cons.mp hmem with rfl | hmem
      · exact hlt
      · exact hother third hmem
    · have hlt := lt_of_not_ge hle
      rw [takeWhile_cons_of_neg (by simpa using hle),
        dropWhile_cons_of_neg (by simpa using hle), nil_append]
      refine pairwise_cons.mpr ⟨?_, h⟩
      intro third hthird
      rcases mem_cons.mp hthird with rfl | hmem
      · exact hlt
      · exact hlt.trans (hother third hmem)

/-- The other files stay as they are. -/
theorem filter_insertFile (hnew : ∀ other ∈ files, other.path ≠ file.path) :
  (insertFile file files).filter (fun other => other.path ≠ file.path) = files
  := by
  have hkept : ∀ part : List BundleFile, part ⊆ files →
      part.filter (fun other => other.path ≠ file.path) = part := by
    intro part hpart
    rw [filter_eq_self]
    intro other hother
    simpa using hnew other (hpart hother)
  rw [insertFile, filter_append, filter_cons_of_neg (by simp),
    hkept _ (takeWhile_subset _), hkept _ (dropWhile_subset _),
    takeWhile_append_dropWhile]

end

/-! ### Paths are ASCII -/

theorem ascii_extension {kernel : Kernel} {uri : List UInt8} {image : DecodedImage}
    (h : decodeDataUri kernel uri = some image) :
  Ascii image.extension
  := by
  have hextension : ∀ mimetype, Ascii (extensionOf mimetype) := by
    intro mimetype
    rw [extensionOf]
    split_ifs <;> simp [bytesOf]
  rw [decodeDataUri] at h
  split at h
  case isFalse => cases h
  case isTrue =>
    obtain ⟨marker, -, hdecoded⟩ := Option.bind_eq_some_iff.mp h
    dsimp only at hdecoded
    split at hdecoded
    · cases hdecoded
    · rw [← Option.some.inj hdecoded]
      exact hextension _

theorem ascii_padded (number : ℤ) :
  Ascii (padded number)
  := by
  rw [padded]
  split
  · rw [ascii_append]
    refine ⟨fun byte hbyte => ?_, ascii_printedInt number⟩
    rw [eq_of_mem_replicate hbyte]
    decide
  · exact ascii_printedInt number

theorem ascii_imageFile {directory stem : String} {image : ℤ × DecodedImage}
    (hdirectory : Ascii (bytesOf directory)) (hstem : Ascii (bytesOf stem))
    (h : Ascii image.2.extension) :
  Ascii (imageFile directory stem image).path
  := by
  have hsymbols : Ascii (bytesOf "/") ∧ Ascii (bytesOf "_") ∧ Ascii (bytesOf ".") := by
    simp [bytesOf]
  obtain ⟨hslash, hunderscore, hdot⟩ := hsymbols
  simp only [imageFile, numbered, ascii_append]
  exact ⟨⟨⟨⟨⟨⟨hdirectory, hslash⟩, hstem⟩, hunderscore⟩, ascii_padded _⟩, hdot⟩, h⟩

section

variable (kernel : Kernel) (document : Document) (exports : DocumentExports)
  (encoded rendered : List UInt8)

theorem ascii_gathered :
  ∀ file ∈ gathered kernel document exports encoded rendered, Ascii file.path
  := by
  intro file hfile
  rw [gathered_eq] at hfile
  rcases mem_append.mp hfile with hfile | hfile
  · rcases mem_append.mp hfile with hfile | hfile
    · rcases mem_append.mp hfile with hfile | hfile
      · rcases mem_pair.mp hfile with rfl | rfl <;> simp [bytesOf]
      · obtain ⟨path, hpath, heq⟩ := exists_exportMember hfile
        have hall : (exportMembers exports).map Prod.fst = (exportMembers {}).map Prod.fst := rfl
        have hbytes : ((exportMembers {}).map Prod.fst).all
            fun path => (bytesOf path).all fun byte => byte.toNat < 0x80 := rfl
        have hascii := all_eq_true.mp hbytes path (hall ▸ hpath)
        intro byte hbyte
        rw [heq] at hbyte
        exact of_decide_eq_true (all_eq_true.mp hascii byte hbyte)
    · obtain ⟨image, himage, rfl⟩ := mem_map.mp hfile
      obtain ⟨pageNo, -, himage⟩ := mem_filterMap.mp himage
      obtain ⟨reference, -, himage⟩ := Option.bind_eq_some_iff.mp himage
      obtain ⟨decoded, hdecoded, rfl⟩ := Option.map_eq_some_iff.mp himage
      exact ascii_imageFile (by simp [bytesOf]) (by simp [bytesOf])
        (ascii_extension hdecoded)
  · obtain ⟨image, himage, rfl⟩ := mem_map.mp hfile
    obtain ⟨⟨picture, index⟩, -, himage⟩ := mem_filterMap.mp himage
    obtain ⟨reference, -, himage⟩ := Option.bind_eq_some_iff.mp himage
    obtain ⟨decoded, hdecoded, rfl⟩ := Option.map_eq_some_iff.mp himage
    exact ascii_imageFile (by simp [bytesOf]) (by simp [bytesOf])
      (ascii_extension hdecoded)

end

/-! ### The bundle -/

section

variable {serialize : Document → Option (List UInt8)}
  {renderCanonicalJson : Document → Except String (List UInt8)} {kernel : Kernel}
  {document : Document} {exports : DocumentExports} {files : List BundleFile}

theorem buildBundle_eq
    (h : buildBundle serialize renderCanonicalJson kernel document exports = .ok files) :
  ∃ encoded rendered, files =
    insertFile (manifestOf (sortOn pathKey (gathered kernel document exports encoded rendered)))
      (sortOn pathKey (gathered kernel document exports encoded rendered))
  := by
  rw [buildBundle] at h
  cases hencoded : serializeDocument serialize document with
  | error error =>
    rw [hencoded] at h
    cases h
  | ok encoded =>
    cases hrendered : documentJson renderCanonicalJson document exports with
    | error error =>
      rw [hencoded, hrendered] at h
      cases h
    | ok rendered =>
      rw [hencoded, hrendered] at h
      exact ⟨encoded, rendered, (Except.ok.inj h).symm⟩

/-- The files of a bundle are those gathered and the manifest, strictly sorted. -/
theorem buildBundle_spec
    (h : buildBundle serialize renderCanonicalJson kernel document exports = .ok files) :
  ∃ encoded rendered manifest,
    files.Pairwise (fun file other => pathKey file < pathKey other) ∧
    files.Perm (manifest :: gathered kernel document exports encoded rendered) ∧
    manifest.path = bytesOf "manifest.json" ∧
    manifest.bytes = renderManifest (files.filter fun file => file.path ≠ manifest.path) ∧
    (files.filter fun file => file.path ≠ manifest.path).Perm
      (gathered kernel document exports encoded rendered)
  := by
  obtain ⟨encoded, rendered, rfl⟩ := buildBundle_eq h
  have hsorted := pairwise_lt_sortOn (nodup_gathered kernel document exports encoded rendered)
  have hperm := sortOn_perm pathKey (gathered kernel document exports encoded rendered)
  generalize sortOn pathKey (gathered kernel document exports encoded rendered) = sorted
    at hsorted hperm
  have hnew : ∀ other ∈ sorted, other.path ≠ (manifestOf sorted).path := by
    intro other hother heq
    have hmark : mark other = bytesOf "ma" := congrArg (take 2) heq
    exact mark_gathered _ _ _ _ _ other (hperm.mem_iff.mp hother) hmark
  refine ⟨encoded, rendered, manifestOf sorted, pairwise_insertFile hsorted hnew,
    insertFile_perm.trans (hperm.cons _), rfl, ?_, ?_⟩
  · rw [filter_insertFile hnew]
    rfl
  · rw [filter_insertFile hnew]
    exact hperm

/-- Some of the files of a bundle are in the order in which they were gathered just when that order
is sorted. -/
theorem filter_eq_iff {p : BundleFile → Bool} {gathered part : List BundleFile}
    {manifest : BundleFile}
    (hsorted : files.Pairwise fun file other => pathKey file < pathKey other)
    (hperm : files.Perm (manifest :: gathered)) (hmanifest : p manifest = false)
    (hpart : gathered.filter p = part) :
  files.filter p = part ↔ (part.map pathKey).Pairwise (· < ·)
  := by
  rw [pairwise_map]
  constructor
  · rintro rfl
    exact hsorted.filter p
  · intro horder
    have hfilter := hperm.filter p
    rw [filter_cons_of_neg (by simp [hmanifest]), hpart] at hfilter
    refine hfilter.eq_of_pairwise ?_ (hsorted.filter p) horder
    exact fun file other _ _ hlt hgt => absurd hlt hgt.not_gt

/-- The files of the pages and of the pictures are in order just when their numbers are. -/
theorem buildBundle_numbered_iff
    (h : buildBundle serialize renderCanonicalJson kernel document exports = .ok files) :
  (files.filter isPage = pageFiles kernel document ↔
      ((pageImages kernel document).map Prod.fst).Pairwise PaddedInOrder) ∧
    (files.filter isPicture = pictureFiles kernel document ↔
      ((pictureImages kernel document).map Prod.fst).Pairwise PaddedInOrder)
  := by
  obtain ⟨encoded, rendered, manifest, hsorted, hperm, hpath, -⟩ := buildBundle_spec h
  have hpage : isPage manifest = false := by
    rw [isPage, begins, hpath]
    decide
  have hpicture : isPicture manifest = false := by
    rw [isPicture, begins, hpath]
    decide
  constructor
  · rw [filter_eq_iff hsorted hperm hpage (filter_isPage_gathered _ _ _ _ _)]
    exact pairwise_imageFile_iff _ _ (pairwise_pageImages kernel document)
  · rw [filter_eq_iff hsorted hperm hpicture (filter_isPicture_gathered _ _ _ _ _)]
    exact pairwise_imageFile_iff _ _ (pairwise_pictureImages kernel document)

/-- The paths of a bundle increase strictly, and its manifest lists every other file in this order,
with its digest and its size.  The files of the pages and of the pictures are in the order of their
numbers just when these are in order as they are padded. -/
theorem buildBundle_ordered_iff
    (h : buildBundle serialize renderCanonicalJson kernel document exports = .ok files) :
  (files.map pathKey).Pairwise (· < ·) ∧
    (∃ manifest ∈ files, manifest.path = bytesOf "manifest.json" ∧
      Json.read manifest.bytes =
        some (manifestValue (files.filter fun file => file.path ≠ manifest.path))) ∧
    ((files.filter isPage = pageFiles kernel document ∧
        files.filter isPicture = pictureFiles kernel document) ↔
      ((pageImages kernel document).map Prod.fst).Pairwise PaddedInOrder ∧
        ((pictureImages kernel document).map Prod.fst).Pairwise PaddedInOrder)
  := by
  obtain ⟨encoded, rendered, manifest, hsorted, hperm, hpath, hbytes, hothers⟩ := buildBundle_spec h
  obtain ⟨hpages, hpictures⟩ := buildBundle_numbered_iff h
  refine ⟨List.pairwise_map.mpr hsorted, ⟨manifest, ?_, hpath, ?_⟩, and_congr hpages hpictures⟩
  · exact hperm.mem_iff.mpr List.mem_cons_self
  · rw [hbytes]
    apply read_renderManifest
    intro file hfile
    exact ascii_gathered _ _ _ _ _ file (hothers.mem_iff.mp hfile)

end

/-- Pages with an image of three zero bytes. -/
def pagesOf (numbers : Finset ℤ) : Document where
  pages := .collect numbers fun _ => some { image := some ⟨bytesOf "data:image/png;base64,AAAA"⟩ }

theorem buildBundle_ordered_iff_pagesOf :
  ∃ files, buildBundle (fun _ => some []) (fun _ => .ok []) plainKernel (pagesOf {1, 2}) {} =
      .ok files ∧ (files.map pathKey).Pairwise (· < ·)
  := ⟨_, rfl, (@buildBundle_ordered_iff (fun _ => some []) (fun _ => .ok []) plainKernel
    (pagesOf {1, 2}) {} _ rfl).1⟩

/-- The file of page 10000 is before that of page 9999. -/
theorem not_ordered_pagesOf :
  ∃ files, buildBundle (fun _ => some []) (fun _ => .ok []) plainKernel (pagesOf {9999, 10000}) {} =
      .ok files ∧ files.filter isPage ≠ pageFiles plainKernel (pagesOf {9999, 10000})
  := by
  refine ⟨_, rfl, ?_⟩
  rw [Ne, (@buildBundle_numbered_iff (fun _ => some []) (fun _ => .ok []) plainKernel
    (pagesOf {9999, 10000}) {} _ rfl).1]
  have hnumbers : (pageImages plainKernel (pagesOf {9999, 10000})).map Prod.fst = [9999, 10000] := by
    have himage : decodeDataUri plainKernel (bytesOf "data:image/png;base64,AAAA") =
        some ⟨[0, 0, 0], bytesOf "png"⟩ := by
      decide +kernel
    have hkeys : (pagesOf {9999, 10000}).pages.keys = [9999, 10000].toFinset :=
      (Map.keys_collect fun _ _ => rfl).trans rfl
    have hsort : [9999, 10000].toFinset.sort (· ≤ ·) = [(9999 : ℤ), 10000] :=
      (List.toFinset_sort _ (by decide)).mpr (by decide)
    rw [pageImages, hkeys, hsort]
    simp [pagesOf, himage]
  have hplaces : places 10000 = 5 ∧ places 9999 = 4 := by
    rw [← length_decimal, ← length_decimal]
    decide
  rw [hnumbers, List.pairwise_pair, PaddedInOrder]
  intro horder
  rcases horder with ⟨-, hle⟩ | ⟨hneg, -⟩ | ⟨hneg, -⟩
  · rw [show (9999 : ℤ).natAbs = 9999 from rfl, show (10000 : ℤ).natAbs = 10000 from rfl, hplaces.1, hplaces.2] at hle
    norm_num at hle
  · omega
  · omega

end GRParse.Bundles
