import GRParse.Document.References
import GRParse.Lib.Utf8
import GRParse.Render.NumericCells

/-!
# Records of a web archive

The server streams an archive as events: a record starts, its payload comes in chunks, it ends.  The
fold makes a group of each record, with its metadata and the start of its payload as texts, and takes
the provenance of the document from one record.  Texts are bytes.  The validation of UTF-8 and the
printed form of a time come from libraries and are parameters; labels, layers and sources are
written once and read by nothing here, and are left out.
-/

namespace GRParse.Warc

open Utf8
open Render (tolower)

abbrev Text := List UInt8

/-- A text of the source. -/
def utf8 (text : String) : Text :=
  encode text.toList

/-- `std::to_string`. -/
def decimal (value : ℕ) : Text :=
  encode (Nat.toDigits 10 value)

/-! ### The events -/

structure Timestamp where
  seconds : ℤ := 0
  nanos : ℤ := 0
  deriving DecidableEq

structure HeaderBlock where
  statusLine : Option Text := none
  fields : List (Text × Text) := []
  deriving DecidableEq

/-- What is known of a record when it starts. -/
structure RecordMetadata where
  recordType : ℤ := 0
  warcHeaders : HeaderBlock := {}
  contentLength : ℕ := 0
  streamPos : ℕ := 0
  httpHeaders : Option HeaderBlock := none
  httpContentType : Option Text := none
  httpCharset : Option Text := none
  recordId : Option Text := none
  recordDate : Option Timestamp := none
  deriving DecidableEq

structure RecordError where
  streamPos : ℕ := 0
  recoverable : Bool := false
  message : Text := []
  deriving DecidableEq

/-- An event of the protocol. -/
inductive Event where
  | recordStart (metadata : RecordMetadata)
  | payloadChunk (data : Text)
  | recordEnd (payloadLength : ℕ)
  | recordError (error : RecordError)
  | kindNotSet

/-- A message: an event, or a batch of messages. -/
inductive ParseWarcResponse where
  | one (event : Event)
  | batch (items : List ParseWarcResponse)

/-! ### The document -/

structure TextItem where
  selfRef : String
  parent : String
  orig : Text
  text : Text

structure GroupItem where
  selfRef : String
  parent : String
  name : Text
  children : List String := []

/-- `origin.web`.  A header is assigned once, so the map of headers is a list of them. -/
structure WebMeta where
  targetUri : Text
  crawlTime : Option Timestamp := none
  crawlTimeRaw : Option Text := none
  httpStatus : Option ℕ := none
  headers : List (Text × Text) := []
  contentLanguage : Option Text := none
  deriving DecidableEq

structure Document where
  bodyChildren : List String := []
  groups : List GroupItem := []
  texts : List TextItem := []
  web : Option WebMeta := none

/-! ### Texts -/

/-- The payload bytes that are kept. -/
def kPayloadTextBytes : ℕ := 64 * 1024

/-- What stands for a byte that begins no character. -/
def kReplacement : Text :=
  encode [Char.ofNat 0xfffd]

/-- `std::string::contains`. -/
def contains (text piece : Text) : Bool :=
  piece <:+: text

def looksTextual (metadata : RecordMetadata) : Bool :=
  match metadata.httpContentType with
  | none => true
  | some type =>
    (utf8 "text/").isPrefixOf type || contains type (utf8 "json") ||
      contains type (utf8 "xml") || contains type (utf8 "html")

/-- How many bytes the sequence of a lead byte has. -/
def needed (byte : UInt8) : ℕ :=
  if 0xf0 ≤ byte then 4 else if 0xe0 ≤ byte then 3 else if 0xc0 ≤ byte then 2 else 1

/-- The loop of `drop_split_tail`, over the distances from the end that are left. -/
def dropSplitTailFrom (bytes : Text) : List ℕ → Text
  | [] => bytes
  | back :: rest =>
    if bytes.length < back then bytes
    else
      let byte := bytes.getD (bytes.length - back) 0
      if !startsChar byte then dropSplitTailFrom bytes rest
      else if back < needed byte then bytes.take (bytes.length - back)
      else bytes

def dropSplitTail (bytes : Text) : Text :=
  dropSplitTailFrom bytes [1, 2, 3]

/-- Texts are compared byte by byte. -/
local instance lawfulText : LawfulBEq (List UInt8) := inferInstance

def isLatin1Charset (charset : Text) : Bool :=
  charset.map tolower ∈
    [utf8 "iso-8859-1", utf8 "iso8859-1", utf8 "latin1", utf8 "latin-1", utf8 "l1"]

/-- `convert_latin1_to_utf8`. -/
def fromLatin1 (bytes : Text) : Text :=
  encode (bytes.map fun byte => Char.ofNat byte.toNat)

/-- The first field of a name, whatever the case of its letters. -/
def headerField (block : HeaderBlock) (name : Text) : Option Text :=
  (block.fields.find? fun field => field.1.map tolower = name.map tolower).map Prod.snd

/-- Three digits behind the first word of a status line. -/
def statusCode (statusLine : Text) : Option ℕ :=
  let rest := statusLine.dropWhile (· != 0x20)
  let code := rest.dropWhile (· == 0x20)
  let digits := code.takeWhile fun byte => 0x30 ≤ byte && byte ≤ 0x39
  if rest = [] ∨ code = [] then none
  else if digits.length ≠ 3 then none
  else some (digits.foldl (fun value byte => value * 10 + (byte.toNat - 0x30)) 0)

section

variable (validate : (text : Text) → Option (Fin text.length))

/-- `utf8_text`. -/
def utf8Text (bytes : Text) : Text :=
  match validate bytes with
  | none => bytes
  | some count => bytes.take count ++ kReplacement ++ utf8Text (bytes.drop (count + 1))
termination_by bytes.length
decreasing_by
  rw [List.length_drop]
  have hlt := count.isLt
  omega

/-- `payload_text`, with the charset that is not decoded. -/
def payloadText (metadata : RecordMetadata) (bytes : Text) (cut : Bool) : Text × Option Text :=
  let whole := if cut then dropSplitTail bytes else bytes
  if (validate whole).isNone then (whole, none)
  else if metadata.httpCharset.any isLatin1Charset then (fromLatin1 bytes, none)
  else (utf8Text validate whole, some (metadata.httpCharset.getD (utf8 "undeclared")))

def headerValue (block : HeaderBlock) (name : Text) : Option Text :=
  (headerField block name).map (utf8Text validate)

/-- The fields of a block that are among the given ones, as headers. -/
def headersOf (block : HeaderBlock) (names : List Text) : List (Text × Text) :=
  names.filterMap fun name => (headerValue validate block name).map (name, ·)

/-- `capture_http`. -/
def captureHttp (http : HeaderBlock) (web : WebMeta) : WebMeta :=
  { web with
    httpStatus := (http.statusLine.bind statusCode).or web.httpStatus
    headers := web.headers ++ headersOf validate http
      [utf8 "content-type", utf8 "last-modified", utf8 "content-language", utf8 "etag"]
    contentLanguage := (headerValue validate http (utf8 "content-language")).or web.contentLanguage }

variable (timeText : Timestamp → Text)

/-- What `capture_web` writes for a record with a target. -/
def webOf (metadata : RecordMetadata) (target : Text) : WebMeta :=
  let web : WebMeta :=
    { targetUri := target
      crawlTime := metadata.recordDate
      crawlTimeRaw := metadata.recordDate.map timeText }
  let web := metadata.httpHeaders.elim web fun http => captureHttp validate http web
  { web with
    headers := web.headers ++ headersOf validate metadata.warcHeaders
      [utf8 "warc-payload-digest", utf8 "warc-block-digest"] }

end

/-! ### Records -/

def kResponse : ℤ := 2

def isResponse (metadata : RecordMetadata) : Bool :=
  metadata.recordType = kResponse

/-- The names of the types of records, `WarcRecordType_Name`. -/
def kRecordTypeNames : List (ℤ × String) :=
  [(0, "WARC_RECORD_TYPE_UNSPECIFIED"), (1, "WARC_RECORD_TYPE_WARCINFO"),
    (2, "WARC_RECORD_TYPE_RESPONSE"), (3, "WARC_RECORD_TYPE_RESOURCE"),
    (4, "WARC_RECORD_TYPE_REQUEST"), (5, "WARC_RECORD_TYPE_METADATA"),
    (6, "WARC_RECORD_TYPE_REVISIT"), (7, "WARC_RECORD_TYPE_CONVERSION"),
    (8, "WARC_RECORD_TYPE_CONTINUATION"), (32768, "WARC_RECORD_TYPE_UNKNOWN")]

def kRecordTypePrefix : List Char := "WARC_RECORD_TYPE_".toList

/-- The name of the type without its prefix, or its number when it has none. -/
def recordTypeName (metadata : RecordMetadata) : Text :=
  let name := ((kRecordTypeNames.lookup metadata.recordType).getD "").toList
  let name := if kRecordTypePrefix.isPrefixOf name then name.drop kRecordTypePrefix.length else name
  let name := if name = [] then (toString metadata.recordType).toList else name
  encode (name.map Char.toLower)

def groupName (metadata : RecordMetadata) : Text :=
  recordTypeName metadata ++ utf8 " @ " ++ decimal metadata.streamPos

section

variable (timeText : Timestamp → Text)

/-- The texts that a record has whatever its payload. -/
def metadataTexts (metadata : RecordMetadata) (payloadLength : ℕ) : List Text :=
  [utf8 "warc-type: " ++ recordTypeName metadata,
    utf8 "stream-pos: " ++ decimal metadata.streamPos] ++
  (metadata.recordId.map (utf8 "record-id: " ++ ·)).toList ++
  (metadata.recordDate.map fun date => utf8 "record-date: " ++ timeText date).toList ++
  (metadata.httpContentType.map (utf8 "http-content-type: " ++ ·)).toList ++
  [utf8 "content-length: " ++ decimal metadata.contentLength,
    utf8 "payload-length: " ++ decimal payloadLength]

end

/-- What is said of a payload of which bytes are missing. -/
def truncationNote (payloadLength : ℕ) : Text :=
  utf8 "\n[fastwarc: payload truncated to the first " ++ decimal kPayloadTextBytes ++
    utf8 " of " ++ decimal payloadLength ++ utf8 " bytes]"

/-- The text of the payload of a record, when it reads as text, and the charset that is not
decoded. -/
def payloadItem (validate : (text : Text) → Option (Fin text.length)) (metadata : RecordMetadata)
    (payload : Text) (payloadLength : ℕ) : Option (Text × Option Text) :=
  if looksTextual metadata ∧ 0 < payloadLength then
    let cut := payload.length < payloadLength
    let (text, undecoded) := payloadText validate metadata payload cut
    some (if cut then text ++ truncationNote payloadLength else text, undecoded)
  else none

/-! ### The fold -/

/-- The state of the fold. -/
structure WarcFold where
  document : Document := {}
  warnings : List Text := []
  current : RecordMetadata := {}
  payload : Text := []
  recordOpen : Bool := false
  webCaptured : Bool := false
  webFromResponse : Bool := false
  undecodedCharsets : List Text := []

/-- `add_text`. -/
def Document.addText (group : ℕ) (document : Document) (text : Text) : Document :=
  let selfRef := slotRef kTexts document.texts.length
  { document with
    texts := document.texts ++ [{ selfRef, parent := slotRef kGroups group, orig := text, text }]
    groups := document.groups.modify group fun item =>
      { item with children := item.children ++ [selfRef] } }

/-- `add_groups`, with what `fold_record` sets. -/
def Document.addGroup (document : Document) (name : Text) : Document :=
  let selfRef := slotRef kGroups document.groups.length
  { document with
    groups := document.groups ++ [{ selfRef, parent := "#/body", name }]
    bodyChildren := document.bodyChildren ++ [selfRef] }

def noteRecordError (error : RecordError) : Text :=
  if error.recoverable then
    utf8 "record at stream offset " ++ decimal error.streamPos ++ utf8 " skipped: " ++ error.message
  else
    utf8 "archive truncated by a framing error at stream offset " ++ decimal error.streamPos ++
      utf8 ": " ++ error.message

def undecodedWarning (charset : Text) : Text :=
  utf8 "payload text in charset " ++ charset ++
    utf8 " is not decoded; invalid UTF-8 bytes became U+FFFD"

namespace WarcFold

section

variable (validate : (text : Text) → Option (Fin text.length)) (timeText : Timestamp → Text)

/-- `capture_web`. -/
def captureWeb (fold : WarcFold) (metadata : RecordMetadata) : WarcFold :=
  if fold.webCaptured && (fold.webFromResponse || !isResponse metadata) then fold
  else
    match headerValue validate metadata.warcHeaders (utf8 "WARC-Target-URI") with
    | none => fold
    | some target =>
      { fold with
        document := { fold.document with web := some (webOf validate timeText metadata target) }
        webCaptured := true
        webFromResponse := isResponse metadata }

/-- `fold_record`. -/
def foldRecord (fold : WarcFold) (metadata : RecordMetadata) (payload : Text)
    (payloadLength : ℕ) : WarcFold :=
  let fold := fold.captureWeb validate timeText metadata
  let index := fold.document.groups.length
  let document := (metadataTexts timeText metadata payloadLength).foldl (Document.addText index)
    (fold.document.addGroup (groupName metadata))
  match payloadItem validate metadata payload payloadLength with
  | none => { fold with document }
  | some (text, undecoded) =>
    let fresh := undecoded.filter fun charset => charset ∉ fold.undecodedCharsets
    { fold with
      document := document.addText index text
      undecodedCharsets := fresh.toList ++ fold.undecodedCharsets
      warnings := fold.warnings ++ (fresh.map undecodedWarning).toList }

/-- `handle`, for an event. -/
def handleEvent (fold : WarcFold) : Event → WarcFold
  | .recordStart metadata =>
    let fold :=
      if fold.recordOpen then
        let folded := fold.foldRecord validate timeText fold.current fold.payload
          fold.current.contentLength
        { folded with warnings := folded.warnings ++ [utf8 "record at stream offset " ++
            decimal fold.current.streamPos ++ utf8 " closed without a record_end"] }
      else fold
    { fold with current := metadata, recordOpen := true, payload := [] }
  | .payloadChunk data =>
    if !fold.recordOpen then fold
    else if fold.payload.length < kPayloadTextBytes then
      { fold with payload := fold.payload ++
          data.take (min data.length (kPayloadTextBytes - fold.payload.length)) }
    else fold
  | .recordEnd payloadLength =>
    if !fold.recordOpen then fold
    else
      { fold.foldRecord validate timeText fold.current fold.payload payloadLength with
        recordOpen := false }
  | .recordError error => { fold with warnings := fold.warnings ++ [noteRecordError error] }
  | .kindNotSet => fold

mutual

/-- `handle`. -/
def handle (fold : WarcFold) : ParseWarcResponse → WarcFold
  | .one event => fold.handleEvent validate timeText event
  | .batch items => handleAll fold items

def handleAll (fold : WarcFold) : List ParseWarcResponse → WarcFold
  | [] => fold
  | item :: items => handleAll (handle fold item) items

end

def close (fold : WarcFold) : WarcFold :=
  if !fold.recordOpen then fold
  else
    let folded := fold.foldRecord validate timeText fold.current fold.payload
      fold.current.contentLength
    { folded with warnings := folded.warnings ++ [utf8 "stream ended inside the record at stream offset " ++
        decimal fold.current.streamPos] }

end

end WarcFold

/-- What the fold makes of a stream: the document and the warnings. -/
def collect (validate : (text : Text) → Option (Fin text.length)) (timeText : Timestamp → Text)
    (responses : List ParseWarcResponse) : Document × List Text :=
  let fold := (WarcFold.handleAll validate timeText {} responses).close validate timeText
  (fold.document, fold.warnings)

end GRParse.Warc
