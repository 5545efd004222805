import GRParse.Codec.Base64Kernel
import GRParse.Lib.Map
import GRParse.Lib.Message
import GRParse.Lib.SortOn
import GRParse.Render.ReadBack
import GRParse.Targets.Sha256
import GRParse.Targets.ZipWriter
import Mathlib.Data.Finset.Sort

/-!
# The bundle of a document

The files that a target delivers: the document in two forms, the exports that were asked for, and
the images of the pages and of the pictures, all of them sorted by their paths as bytes.  A manifest
that lists every other file with its digest and its size is put among them where its own path
belongs.
-/

namespace GRParse.Bundles

open Codec Containers Digest Protobuf Render Sorting
open Zip (BundleFile)

/-! ### The document and its exports -/

structure ImageRef where
  uri : List UInt8 := []

structure PageItem where
  image : Option ImageRef := none

structure PictureItem where
  image : Option ImageRef := none

/-- A document: what a bundle reads of it itself, and the rest, which is only serialized. -/
structure Document where
  pages : Map ℤ PageItem := ∅
  pictures : List PictureItem := []
  rest : Message := .done

/-- The exports that a request rendered. -/
structure DocumentExports where
  canonicalJson : Option (List UInt8) := none
  doclang : Option (List UInt8) := none
  doctags : Option (List UInt8) := none
  gdocsJson : Option (List UInt8) := none
  html : Option (List UInt8) := none
  htmlSplitPage : Option (List UInt8) := none
  json : Option (List UInt8) := none
  latex : Option (List UInt8) := none
  md : Option (List UInt8) := none
  text : Option (List UInt8) := none
  vtt : Option (List UInt8) := none
  yaml : Option (List UInt8) := none
  dclx : Option (List UInt8) := none

/-- The bytes of a text of the source. -/
def bytesOf (text : String) : List UInt8 :=
  text.toList.map fun c => .ofNat c.toNat

/-! ### Images -/

/-- Where some bytes stand in others for the first time. -/
def find (pattern : List UInt8) : List UInt8 → Option ℕ
  | [] => if pattern = [] then some 0 else none
  | byte :: rest =>
    if pattern.isPrefixOf (byte :: rest) then some 0 else (find pattern rest).map (· + 1)

def kDataUriPrefix : List UInt8 := bytesOf "data:"

def kBase64Marker : List UInt8 := bytesOf ";base64,"

/-- The extension that a mimetype implies. -/
def extensionOf (mimetype : List UInt8) : List UInt8 :=
  if mimetype = bytesOf "image/jpeg" then bytesOf "jpg"
  else if mimetype = bytesOf "image/tiff" then bytesOf "tif"
  else if mimetype = bytesOf "image/webp" then bytesOf "webp"
  else bytesOf "png"

/-- The bytes of an image and the extension of its file. -/
structure DecodedImage where
  bytes : List UInt8
  extension : List UInt8
  deriving DecidableEq

section

variable (kernel : Kernel)

/-- `decode_data_uri`. -/
def decodeDataUri (uri : List UInt8) : Option DecodedImage :=
  if kDataUriPrefix.isPrefixOf uri then
    (find kBase64Marker uri).bind fun marker =>
      let mimetype := (uri.drop kDataUriPrefix.length).take (marker - kDataUriPrefix.length)
      match decodeBase64 kernel (uri.drop (marker + kBase64Marker.length)) with
      | .error _ => none
      | .ok bytes => some ⟨bytes, extensionOf mimetype⟩
  else none

/-- Page numbers are in their usual order. -/
local instance transPages : IsTrans ℤ fun x y => x ≤ y := inferInstance

local instance antisymmPages : Std.Antisymm fun x y : ℤ => x ≤ y := inferInstance

/-- The images of the pages that have one, in the order of the page numbers. -/
def pageImages (document : Document) : List (ℤ × DecodedImage) :=
  (document.pages.keys.sort (· ≤ ·)).filterMap fun pageNo =>
    ((document.pages.lookup pageNo).bind (·.image)).bind fun image =>
      (decodeDataUri kernel image.uri).map fun decoded => (pageNo, decoded)

/-- The images of the pictures that have one, numbered by their positions. -/
def pictureImages (document : Document) : List (ℤ × DecodedImage) :=
  document.pictures.zipIdx.filterMap fun (picture, index) =>
    picture.image.bind fun image =>
      (decodeDataUri kernel image.uri).map fun decoded => ((index : ℤ) + 1, decoded)

end

/-! ### Names -/

/-- A number in at least four places. -/
def padded (number : ℤ) : List UInt8 :=
  let digits := printedInt number
  if digits.length < 4 then List.replicate (4 - digits.length) 0x30 ++ digits else digits

/-- `numbered`. -/
def numbered (directory stem : List UInt8) (number : ℤ) (extension : List UInt8) : List UInt8 :=
  directory ++ bytesOf "/" ++ stem ++ bytesOf "_" ++ padded number ++ bytesOf "." ++ extension

/-- The file of an image. -/
def imageFile (directory stem : String) (image : ℤ × DecodedImage) : BundleFile where
  path := numbered (bytesOf directory) (bytesOf stem) image.1 image.2.extension
  bytes := image.2.bytes

/-! ### Exports -/

/-- The files that exports may have, with what was exported. -/
def exportMembers (exports : DocumentExports) : List (String × Option (List UInt8)) :=
  [("exports/canonical_json.json", exports.canonicalJson), ("exports/doclang.xml", exports.doclang),
    ("exports/doctags.txt", exports.doctags), ("exports/gdocs.json", exports.gdocsJson),
    ("exports/html.html", exports.html), ("exports/html_split_page.html", exports.htmlSplitPage),
    ("exports/json.json", exports.json), ("exports/latex.tex", exports.latex),
    ("exports/markdown.md", exports.md), ("exports/text.txt", exports.text),
    ("exports/vtt.vtt", exports.vtt), ("exports/yaml.yaml", exports.yaml),
    ("exports/document.dclx", exports.dclx)]

/-- `add_exports`. -/
def exportFiles (exports : DocumentExports) : List BundleFile :=
  (exportMembers exports).filterMap fun (path, value) =>
    value.map fun bytes => ⟨bytesOf path, bytes⟩

/-! ### The manifest -/

/-- `GRPARSE_VERSION` is the version of the project. -/
def kGenerator : List UInt8 := bytesOf "grparse/0.3.0"

def kManifestSchemaVersion : ℕ := 1

/-- A byte in a string of JSON. -/
def escapeByte (byte : UInt8) : List UInt8 :=
  if byte = 0x22 then [0x5c, 0x22]
  else if byte = 0x5c then [0x5c, 0x5c]
  else if byte = 0x08 then [0x5c, 0x62]
  else if byte = 0x0c then [0x5c, 0x66]
  else if byte = 0x0a then [0x5c, 0x6e]
  else if byte = 0x0d then [0x5c, 0x72]
  else if byte = 0x09 then [0x5c, 0x74]
  else if byte < 0x20 then
    [0x5c, 0x75, 0x30, 0x30, kDigits.getD (byte >>> 4).toNat 0,
      kDigits.getD (byte &&& 0x0f).toNat 0]
  else [byte]

/-- `json_escape`. -/
def jsonEscape (value : List UInt8) : List UInt8 :=
  value.flatMap escapeByte

/-- What the manifest says about a file. -/
def renderEntry (file : BundleFile) : List UInt8 :=
  bytesOf "\x7b\"path\":\"" ++ jsonEscape file.path ++ bytesOf "\",\"sha256\":\"" ++
    sha256Hex file.bytes ++ bytesOf "\",\"size_bytes\":" ++ JsonWriter.decimal file.bytes.length ++
    bytesOf "\x7d"

/-- `render_manifest`. -/
def renderManifest (files : List BundleFile) : List UInt8 :=
  bytesOf "\x7b\"files\":[" ++ (bytesOf ",").intercalate (files.map renderEntry) ++
    bytesOf "],\"generator\":\"" ++ jsonEscape kGenerator ++ bytesOf "\",\"schema_version\":" ++
    JsonWriter.decimal kManifestSchemaVersion ++ bytesOf "\x7d"

/-! ### The bundle -/

/-- A path as it is compared: byte by byte. -/
def pathKey (file : BundleFile) : List ℕ :=
  file.path.map UInt8.toNat

section

variable (serialize : Document → Option (List UInt8))
  (renderCanonicalJson : Document → Except String (List UInt8)) (kernel : Kernel)

/-- `serialize_document`. -/
def serializeDocument (document : Document) : Except String (List UInt8) :=
  match serialize document with
  | none => .error "bundle could not serialize the document"
  | some encoded => .ok encoded

/-- The canonical JSON, rendered unless it was exported. -/
def documentJson (document : Document) (exports : DocumentExports) : Except String (List UInt8) :=
  match exports.canonicalJson with
  | some rendered => .ok rendered
  | none => renderCanonicalJson document

/-- The files in the order in which they are gathered. -/
def gathered (document : Document) (exports : DocumentExports) (encoded rendered : List UInt8) :
    List BundleFile :=
  [⟨bytesOf "document.pb", encoded⟩, ⟨bytesOf "document.json", rendered⟩] ++ exportFiles exports ++
    (pageImages kernel document).map (imageFile "pages" "page") ++
    (pictureImages kernel document).map (imageFile "pictures" "pic")

def manifestOf (files : List BundleFile) : BundleFile where
  path := bytesOf "manifest.json"
  bytes := renderManifest files

/-- A file put behind those whose paths are not behind its own. -/
def insertFile (file : BundleFile) (files : List BundleFile) : List BundleFile :=
  files.takeWhile (fun other => pathKey other ≤ pathKey file) ++
    file :: files.dropWhile fun other => pathKey other ≤ pathKey file

/-- `build_bundle`. -/
def buildBundle (document : Document) (exports : DocumentExports) :
    Except String (List BundleFile) := do
  let encoded ← serializeDocument serialize document
  let rendered ← documentJson renderCanonicalJson document exports
  let files := sortOn pathKey (gathered kernel document exports encoded rendered)
  return insertFile (manifestOf files) files

end

end GRParse.Bundles
