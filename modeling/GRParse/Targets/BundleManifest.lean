import GRParse.Targets.Bundle
import Mathlib.Data.Bool.AllAny

/-!
# Reading the manifest

The manifest is a text of JSON.  Read as such, it lists the files that it was rendered from, one
after another, with their digests and their sizes.
-/

namespace GRParse.Bundles

open Digest Json Render List
open Zip (BundleFile)

/-! ### Strings -/

/-- The characters of a text of the source. -/
def points (text : String) : List ℕ :=
  (bytesOf text).map UInt8.toNat

theorem readHex_escapeByte {byte : UInt8} (h : byte < 0x20) (rest : List UInt8) :
  readHex (0x30 :: 0x30 :: kDigits.getD (byte >>> 4).toNat 0 ::
    kDigits.getD (byte &&& 0x0f).toNat 0 :: rest) = some (byte.toNat, rest)
  := by
  have hvalues : ∀ n : Fin 32, hexValue (kDigits.getD (UInt8.ofNat n >>> 4).toNat 0) =
        some (n.val / 16) ∧
      hexValue (kDigits.getD (UInt8.ofNat n &&& 0x0f).toNat 0) = some (n.val % 16) := by
    decide
  have hzero : hexValue 0x30 = some 0 := by decide
  have hbyte : UInt8.ofNat byte.toNat = byte := UInt8.ofNat_toNat
  obtain ⟨hhigh, hlow⟩ := hvalues ⟨byte.toNat, h⟩
  dsimp only at hhigh hlow
  rw [hbyte] at hhigh hlow
  simp only [readHex, hzero, hhigh, hlow, Option.bind_eq_bind, Option.bind_some, Option.pure_def]
  congr 2
  omega

theorem readUnit_escapeByte (byte : UInt8) (rest : List UInt8) :
  readUnit (escapeByte byte ++ rest) = some (byte.toNat, rest)
  := by
  rw [escapeByte]
  split_ifs with hquote hescape hb hf hn hr ht hcontrol
  · subst hquote
    rfl
  · subst hescape
    rfl
  · subst hb
    rfl
  · subst hf
    rfl
  · subst hn
    rfl
  · subst hr
    rfl
  · subst ht
    rfl
  · simp only [cons_append, nil_append]
    rw [readUnit, if_pos rfl]
    exact readHex_escapeByte hcontrol rest
  · have hplain : ¬ (byte < 0x20 ∨ byte = 0x22) := by
      rintro (h | h)
      · exact hcontrol h
      · exact hquote h
    simp only [singleton_append, readUnit]
    rw [if_neg hescape, if_neg hplain]

theorem ascii_escapeByte {byte : UInt8} (h : byte < 0x80) :
  ∀ other ∈ escapeByte byte, other < 0x80
  := by
  have hall : ∀ n : Fin 128, (escapeByte (UInt8.ofNat n)).all fun other => other < 0x80 := by
    decide +kernel
  have hbyte : UInt8.ofNat byte.toNat = byte := UInt8.ofNat_toNat
  have := hall ⟨byte.toNat, h⟩
  rw [hbyte] at this
  exact all_iff_forall_prop.mp this

/-- The bytes that are read back from their escape, as code units. -/
theorem jsonEscape_eq (value : List UInt8) :
  jsonEscape value = (value.map UInt8.toNat).flatMap fun unit => escapeByte (UInt8.ofNat unit)
  := by
  rw [jsonEscape, flatMap_map]
  simp

theorem readUnit_escapeUnit {value : List UInt8} {unit : ℕ} (h : unit ∈ value.map UInt8.toNat)
    (rest : List UInt8) :
  readUnit (escapeByte (UInt8.ofNat unit) ++ rest) = some (unit, rest)
  := by
  obtain ⟨byte, -, rfl⟩ := mem_map.mp h
  rw [UInt8.ofNat_toNat]
  exact readUnit_escapeByte byte rest

theorem isBody_jsonEscape (value : List UInt8) :
  isBody (jsonEscape value)
  := by
  rw [jsonEscape_eq]
  exact isBody_flatMap fun unit hunit => readUnit_escapeUnit hunit

/-- ASCII is read back from its escape. -/
theorem decodeBody_jsonEscape {value : List UInt8} (h : Ascii value) :
  decodeBody (jsonEscape value) = some (value.map UInt8.toNat)
  := by
  rw [jsonEscape_eq, decodeBody_flatMap fun unit hunit => readUnit_escapeUnit hunit]
  · congr 1
    induction value with
    | nil => rfl
    | cons byte value ih =>
      obtain ⟨hbyte, hvalue⟩ := ascii_cons.mp h
      have hlt : byte.toNat < 0x80 := hbyte
      rw [map_cons, recombine_cons (by omega), ih hvalue]
  · intro unit hunit
    obtain ⟨byte, hbyte, rfl⟩ := mem_map.mp hunit
    rw [UInt8.ofNat_toNat]
    exact ascii_escapeByte (h byte hbyte)

/-- Hexadecimal digits are read as they are. -/
theorem jsonEscape_toHex (bytes : List UInt8) :
  jsonEscape (toHex bytes) = toHex bytes
  := by
  have hdigit : ∀ digit ∈ kDigits, escapeByte digit = [digit] := all_iff_forall_prop.mp rfl
  rw [jsonEscape]
  have hall : ∀ digit ∈ toHex bytes, escapeByte digit = [digit] :=
    fun digit h => hdigit digit (mem_kDigits_of_mem_toHex h)
  generalize toHex bytes = digits at hall
  induction digits with
  | nil => rfl
  | cons digit digits ih =>
    obtain ⟨hfirst, hrest⟩ := forall_mem_cons.mp hall
    rw [flatMap_cons, hfirst, ih hrest, singleton_append]

theorem ascii_toHex (bytes : List UInt8) :
  Ascii (toHex bytes)
  := by
  have hdigit : ∀ digit ∈ kDigits, digit < 0x80 := all_iff_forall_prop.mp rfl
  exact fun digit h => hdigit digit (mem_kDigits_of_mem_toHex h)

/-! ### What the manifest says -/

/-- What the manifest says about a file. -/
def entryValue (file : BundleFile) : Value (List ℕ) :=
  .object [(points "path", .string (file.path.map UInt8.toNat)),
    (points "sha256", .string ((sha256Hex file.bytes).map UInt8.toNat)),
    (points "size_bytes", .number file.bytes.length)]

/-- What the manifest says. -/
def manifestValue (files : List BundleFile) : Value (List ℕ) :=
  .object [(points "files", .array (files.map entryValue)),
    (points "generator", .string (points "grparse/0.3.0")),
    (points "schema_version", .number 1)]

/-! ### Its syntax -/

def entryTree (file : BundleFile) : Tree :=
  .object [(bytesOf "path", .string (jsonEscape file.path)),
    (bytesOf "sha256", .string (jsonEscape (sha256Hex file.bytes))),
    (bytesOf "size_bytes", .scalar (printedInt file.bytes.length))]

def manifestTree (files : List BundleFile) : Tree :=
  .object [(bytesOf "files", .array (files.map entryTree)),
    (bytesOf "generator", .string (jsonEscape kGenerator)),
    (bytesOf "schema_version", .scalar (printedInt 1))]

/-- A member without white space. -/
theorem spellsMembers_last {key text : List UInt8} {member : Tree} (hkey : isBody key)
    (hmember : member.Spells text) :
  SpellsMembers [(key, member)] (0x22 :: (key ++ 0x22 :: 0x3a :: text))
  := by
  refine ⟨[], [], [], text, [], rfl, hkey, rfl, rfl, hmember, rfl, ?_⟩
  simp

theorem spellsMembers_cons {key text inside : List UInt8} {member : Tree}
    {members : List (List UInt8 × Tree)} (hkey : isBody key) (hmember : member.Spells text)
    (hne : members ≠ []) (hmembers : SpellsMembers members inside) :
  SpellsMembers ((key, member) :: members)
    (0x22 :: (key ++ 0x22 :: 0x3a :: (text ++ 0x2c :: inside)))
  := by
  refine ⟨[], [], [], text, [], rfl, hkey, rfl, rfl, hmember, rfl, ?_⟩
  rw [if_neg hne]
  exact ⟨inside, hmembers, by simp⟩

/-- Elements that are joined by commas. -/
theorem spellsElements_intercalate {α : Type} {tree : α → Tree} {text : α → List UInt8}
    (h : ∀ a, (tree a).Spells (text a)) (l : List α) :
  SpellsElements (l.map tree) (List.intercalate [0x2c] (l.map text))
  := by
  induction l with
  | nil => rfl
  | cons a l ih =>
    refine ⟨[], text a, [], rfl, h a, rfl, ?_⟩
    cases l with
    | nil => simp
    | cons b l =>
      rw [if_neg (by simp)]
      refine ⟨_, ih, ?_⟩
      simp [intercalate]

theorem decimal_eq_printedInt (value : ℕ) :
  JsonWriter.decimal value = printedInt value
  := by
  rw [printedInt, if_neg (by omega), Int.natAbs_natCast]

theorem spells_renderEntry (file : BundleFile) :
  (entryTree file).Spells (renderEntry file)
  := by
  have hsize := spellsMembers_last (show isBody (bytesOf "size_bytes") by decide)
    (show Tree.Spells (.scalar (printedInt file.bytes.length)) _ from ⟨isToken_printedInt _, rfl⟩)
  have hdigest := spellsMembers_cons (show isBody (bytesOf "sha256") by decide)
    (show Tree.Spells (.string (jsonEscape (sha256Hex file.bytes))) _ from
      ⟨isBody_jsonEscape _, rfl⟩) (cons_ne_nil _ _) hsize
  have hpath := spellsMembers_cons (show isBody (bytesOf "path") by decide)
    (show Tree.Spells (.string (jsonEscape file.path)) _ from ⟨isBody_jsonEscape _, rfl⟩)
    (cons_ne_nil _ _) hdigest
  refine ⟨_, hpath, ?_⟩
  rw [renderEntry, decimal_eq_printedInt, sha256Hex, jsonEscape_toHex]
  simp [bytesOf]

theorem spells_renderManifest (files : List BundleFile) :
  (manifestTree files).Spells (renderManifest files)
  := by
  have hversion := spellsMembers_last (show isBody (bytesOf "schema_version") by decide)
    (show Tree.Spells (.scalar (printedInt 1)) _ from ⟨isToken_printedInt _, rfl⟩)
  have hgenerator := spellsMembers_cons (show isBody (bytesOf "generator") by decide)
    (show Tree.Spells (.string (jsonEscape kGenerator)) _ from ⟨isBody_jsonEscape _, rfl⟩)
    (cons_ne_nil _ _) hversion
  have hfiles := spellsMembers_cons (show isBody (bytesOf "files") by decide)
    (show Tree.Spells (.array (files.map entryTree)) _ from
      ⟨_, spellsElements_intercalate spells_renderEntry files, rfl⟩)
    (cons_ne_nil _ _) hgenerator
  refine ⟨_, hfiles, ?_⟩
  rw [renderManifest, decimal_eq_printedInt]
  simp [bytesOf, kManifestSchemaVersion]

/-! ### Its meaning -/

theorem value_entryTree {file : BundleFile} (h : Ascii file.path) :
  (entryTree file).value = some (entryValue file)
  := by
  have hpath : decodeBody (bytesOf "path") = some (points "path") := by decide
  have hsha : decodeBody (bytesOf "sha256") = some (points "sha256") := by decide
  have hsize : decodeBody (bytesOf "size_bytes") = some (points "size_bytes") := by decide
  have hnumber := @scalarValue_number (List ℕ) _ _ (numberValue_printedInt file.bytes.length)
  simp [entryTree, entryValue, Tree.value, memberValues, hpath, hsha, hsize,
    decodeBody_jsonEscape h, decodeBody_jsonEscape (ascii_toHex (sha256 file.bytes)), sha256Hex,
    hnumber]

theorem elementValues_entries {files : List BundleFile} (h : ∀ file ∈ files, Ascii file.path) :
  elementValues (files.map entryTree) = some (files.map entryValue)
  := by
  induction files with
  | nil => rfl
  | cons file files ih =>
    obtain ⟨hfile, hfiles⟩ := forall_mem_cons.mp h
    rw [map_cons, elementValues, value_entryTree hfile, ih hfiles]
    rfl

/-- The manifest lists the files that it was rendered from. -/
theorem read_renderManifest {files : List BundleFile} (h : ∀ file ∈ files, Ascii file.path) :
  Json.read (renderManifest files) = some (manifestValue files)
  := by
  have hparse : parse (renderManifest files) = some (manifestTree files) :=
    parse_of_spelled ⟨[], _, [], rfl, spells_renderManifest files, rfl, by simp⟩
  have hfiles : decodeBody (bytesOf "files") = some (points "files") := by decide
  have hgenerator : decodeBody (bytesOf "generator") = some (points "generator") := by decide
  have hversion : decodeBody (bytesOf "schema_version") = some (points "schema_version") := by decide
  have hname : decodeBody (jsonEscape kGenerator) = some (points "grparse/0.3.0") := by decide
  have hnumber := @scalarValue_number (List ℕ) _ _ (numberValue_printedInt 1)
  rw [Json.read, hparse]
  simp [manifestTree, manifestValue, Tree.value, memberValues, hfiles, hgenerator, hversion, hname,
    hnumber, elementValues_entries h]

end GRParse.Bundles
