import GRParse.Collectors.Warc
import GRParse.Lib.Lists
import Mathlib.Data.List.GetD

/-!
# The records of a stream

What the fold makes of a stream depends on its records only, not on how the messages and the chunks
are cut: a record is what starts with its metadata, with the bytes that come for it and the length
that is reported at its end.  Each record becomes a group with its texts, and one of them gives the
document its provenance.
-/

namespace GRParse.Warc

open Utf8 List WarcFold

/-! ### Batches and chunks -/

mutual

/-- The events of a message. -/
def ParseWarcResponse.events : ParseWarcResponse → List Event
  | .one event => [event]
  | .batch items => eventsOf items

/-- The events of messages. -/
def eventsOf : List ParseWarcResponse → List Event
  | [] => []
  | item :: items => item.events ++ eventsOf items

end

/-- One way to cut the payload of a record otherwise: two chunks are joined, an empty one is left
out, or a chunk is moved past an error, which has nothing to do with the payload. -/
inductive Recut : List Event → List Event → Prop
  | join (front : List Event) (first second : Text) (back : List Event) :
    Recut (front ++ .payloadChunk first :: .payloadChunk second :: back)
      (front ++ .payloadChunk (first ++ second) :: back)
  | empty (front back : List Event) :
    Recut (front ++ .payloadChunk [] :: back) (front ++ back)
  | move (front : List Event) (data : Text) (error : RecordError) (back : List Event) :
    Recut (front ++ .payloadChunk data :: .recordError error :: back)
      (front ++ .recordError error :: .payloadChunk data :: back)

variable {fold : WarcFold}

section

variable {validate : (text : Text) → Option (Fin text.length)} {timeText : Timestamp → Text}

mutual

theorem handle_eq (fold : WarcFold) (response : ParseWarcResponse) :
  fold.handle validate timeText response =
    response.events.foldl (WarcFold.handleEvent validate timeText) fold
  := by
  cases response with
  | one event =>
    rw [handle, ParseWarcResponse.events]
    rfl
  | batch items =>
    rw [handle, ParseWarcResponse.events]
    exact handleAll_eq fold items

/-- Messages are handled event by event. -/
theorem handleAll_eq (fold : WarcFold) (responses : List ParseWarcResponse) :
  WarcFold.handleAll validate timeText fold responses =
    (eventsOf responses).foldl (WarcFold.handleEvent validate timeText) fold
  := by
  cases responses with
  | nil =>
    rw [handleAll, eventsOf]
    rfl
  | cons item items =>
    rw [handleAll, eventsOf, foldl_append, handleAll_eq, handle_eq]

end

/-- An open record with as many more bytes as there is room for. -/
def WarcFold.append (fold : WarcFold) (data : Text) : WarcFold :=
  { fold with payload := fold.payload ++ data.take (kPayloadTextBytes - fold.payload.length) }

theorem WarcFold.append_append (fold : WarcFold) (first second : Text) :
  (fold.append first).append second = fold.append (first ++ second)
  := by
  rw [append, append, append]
  congr 1
  rw [append_assoc, take_append, length_append, length_take]
  congr 3
  omega

theorem handleEvent_payloadChunk (hopen : fold.recordOpen) (data : Text) :
  fold.handleEvent validate timeText (.payloadChunk data) = fold.append data
  := by
  rw [handleEvent, hopen, Bool.not_true, if_neg Bool.false_ne_true, append]
  split
  case isTrue => rw [← take_take, take_of_length_le (length_take_le' _ _), hopen]
  case isFalse hfull =>
    rw [Nat.sub_eq_zero_of_le (not_lt.mp hfull), take_zero, append_nil]

theorem handleEvent_payloadChunk_closed (hopen : fold.recordOpen = false) (data : Text) :
  fold.handleEvent validate timeText (.payloadChunk data) = fold
  := by
  rw [handleEvent, hopen]
  rfl

theorem Recut.foldl_eq {events recut : List Event} (h : Recut events recut) (fold : WarcFold) :
  events.foldl (WarcFold.handleEvent validate timeText) fold =
    recut.foldl (WarcFold.handleEvent validate timeText) fold
  := by
  cases h with
  | join front first second back =>
    rw [foldl_append, foldl_append, foldl_cons, foldl_cons, foldl_cons]
    generalize front.foldl (handleEvent validate timeText) fold = fold
    congr 1
    cases hopen : fold.recordOpen with
    | true =>
      have hfirst : (fold.append first).recordOpen := hopen
      rw [handleEvent_payloadChunk hopen, handleEvent_payloadChunk hopen,
        handleEvent_payloadChunk hfirst, fold.append_append]
    | false => rw [handleEvent_payloadChunk_closed hopen, handleEvent_payloadChunk_closed hopen,
        handleEvent_payloadChunk_closed hopen]
  | empty front back =>
    rw [foldl_append, foldl_append, foldl_cons]
    generalize front.foldl (handleEvent validate timeText) fold = fold
    congr 1
    cases hopen : fold.recordOpen with
    | true => rw [handleEvent_payloadChunk hopen, append, take_nil, append_nil]
    | false => exact handleEvent_payloadChunk_closed hopen []
  | move front data error back =>
    rw [foldl_append, foldl_append, foldl_cons, foldl_cons, foldl_cons,
      foldl_cons]
    generalize front.foldl (handleEvent validate timeText) fold = fold
    congr 1
    cases hopen : fold.recordOpen with
    | true =>
      have herror : (fold.handleEvent validate timeText (.recordError error)).recordOpen := hopen
      rw [handleEvent_payloadChunk hopen, handleEvent_payloadChunk herror]
      rfl
    | false =>
      have herror : (fold.handleEvent validate timeText (.recordError error)).recordOpen = false :=
        hopen
      rw [handleEvent_payloadChunk_closed hopen, handleEvent_payloadChunk_closed herror]

/-- What is made of a stream does not depend on how it is cut. -/
theorem collect_eq_of_recut {responses recut : List ParseWarcResponse}
    (h : Relation.EqvGen Recut (eventsOf responses) (eventsOf recut)) :
  collect validate timeText responses = collect validate timeText recut
  := by
  have hfold : ∀ events events', Relation.EqvGen Recut events events' →
      events.foldl (handleEvent validate timeText) {} =
        events'.foldl (handleEvent validate timeText) {} := by
    intro events events' h
    induction h with
    | rel _ _ hrecut => exact hrecut.foldl_eq {}
    | refl => rfl
    | symm _ _ _ ih => exact ih.symm
    | trans _ _ _ _ _ ih ih' => exact ih.trans ih'
  rw [collect, collect, handleAll_eq, handleAll_eq, hfold _ _ h]

/-! ### Records -/

/-- A record of a stream: its metadata, the bytes that came for it and the length that is reported
for them. -/
structure WarcRecord where
  metadata : RecordMetadata
  data : Text
  reported : ℕ

/-- The record that is open, when no end of it came. -/
def unended (opened : Option (RecordMetadata × Text)) : List WarcRecord :=
  (opened.map fun record => ⟨record.1, record.2, record.1.contentLength⟩).toList

/-- The records of events, behind an open one. -/
def recordsFrom : Option (RecordMetadata × Text) → List Event → List WarcRecord
  | opened, [] => unended opened
  | opened, .recordStart metadata :: rest =>
    unended opened ++ recordsFrom (some (metadata, [])) rest
  | opened, .payloadChunk data :: rest =>
    recordsFrom (opened.map fun record => (record.1, record.2 ++ data)) rest
  | opened, .recordEnd payloadLength :: rest =>
    (opened.map fun record => ⟨record.1, record.2, payloadLength⟩).toList ++ recordsFrom none rest
  | opened, .recordError _ :: rest => recordsFrom opened rest
  | opened, .kindNotSet :: rest => recordsFrom opened rest

def recordsOf (events : List Event) : List WarcRecord :=
  recordsFrom none events

/-- The metadata of the records that start. -/
def startsOf (events : List Event) : List RecordMetadata :=
  events.filterMap fun
    | .recordStart metadata => some metadata
    | _ => none

/-- The records are those that start, in their order. -/
theorem map_metadata_recordsFrom (opened : Option (RecordMetadata × Text)) (events : List Event) :
  (recordsFrom opened events).map WarcRecord.metadata =
    (opened.map Prod.fst).toList ++ startsOf events
  := by
  induction events generalizing opened with
  | nil => cases opened <;> rfl
  | cons event events ih =>
    cases event with
    | recordStart metadata =>
      rw [recordsFrom, map_append, ih]
      cases opened <;> rfl
    | payloadChunk data =>
      rw [recordsFrom, ih]
      cases opened <;> rfl
    | recordEnd payloadLength =>
      rw [recordsFrom, map_append, ih]
      cases opened <;> rfl
    | recordError error => exact ih opened
    | kindNotSet => exact ih opened

theorem map_metadata_recordsOf (events : List Event) :
  (recordsOf events).map WarcRecord.metadata = startsOf events
  := (map_metadata_recordsFrom none events).trans (nil_append _)

end

/-! ### The text of a payload -/

/-- The byte that begins a character tells how many bytes it has. -/
theorem utf8EncodeChar_lead (c : Char) :
  ∃ lead continuations, String.utf8EncodeChar c = lead :: continuations ∧ startsChar lead ∧
    needed lead = continuations.length + 1 ∧ ∀ byte ∈ continuations, startsChar byte = false
  := by
  have hone : ∀ k : Fin 128, needed (UInt8.ofNat k.val) = 1 := by decide
  have htwo : ∀ k : Fin 32, needed (UInt8.ofNat (k.val + 192)) = 2 := by decide
  have hthree : ∀ k : Fin 16, needed (UInt8.ofNat (k.val + 224)) = 3 := by decide
  have hfour : ∀ k : Fin 8, needed (UInt8.ofNat (k.val + 240)) = 4 := by decide
  unfold String.utf8EncodeChar
  extract_lets v
  split_ifs with hascii
  · exact ⟨_, _, rfl, startsChar_ascii hascii, hone ⟨v, by omega⟩, forall_mem_nil _⟩
  · refine ⟨_, _, rfl, startsChar_lead (by omega) (by omega), htwo ⟨v / 64 % 32, by omega⟩, ?_⟩
    exact forall_mem_singleton.mpr (startsChar_continuation _)
  · refine ⟨_, _, rfl, startsChar_lead (by omega) (by omega), hthree ⟨v / 4096 % 16, by omega⟩, ?_⟩
    rw [forall_mem_cons, forall_mem_singleton]
    exact ⟨startsChar_continuation _, startsChar_continuation _⟩
  · refine ⟨_, _, rfl, startsChar_lead (by omega) (by omega), hfour ⟨v / 262144 % 8, by omega⟩, ?_⟩
    rw [forall_mem_cons, forall_mem_cons, forall_mem_singleton]
    exact ⟨startsChar_continuation _, startsChar_continuation _, startsChar_continuation _⟩

variable {front continuations : Text}

theorem dropSplitTailFrom_skip {lead : UInt8}
    (h : ∀ byte ∈ continuations, startsChar byte = false) {back : ℕ} (hpos : 0 < back)
    (hback : back ≤ continuations.length) (rest : List ℕ) :
  dropSplitTailFrom (front ++ lead :: continuations) (back :: rest) =
    dropSplitTailFrom (front ++ lead :: continuations) rest
  := by
  have hlength : (front ++ lead :: continuations).length =
      front.length + continuations.length + 1 := by
    rw [length_append, length_cons]
    omega
  have hbyte : (front ++ lead :: continuations).getD
      ((front ++ lead :: continuations).length - back) 0 ∈ continuations := by
    rw [hlength, append_cons, getD_append_right _ _ _ _ (by simp; omega),
      getD_eq_getElem _ _ (by simp; omega)]
    exact getElem_mem _
  rw [dropSplitTailFrom, if_neg (by omega)]
  dsimp only
  rw [h _ hbyte]
  rfl

theorem dropSplitTailFrom_lead {lead : UInt8} (h : startsChar lead) (rest : List ℕ) :
  dropSplitTailFrom (front ++ lead :: continuations) ((continuations.length + 1) :: rest) =
    if continuations.length + 1 < needed lead then front else front ++ lead :: continuations
  := by
  have hlength : (front ++ lead :: continuations).length - (continuations.length + 1) =
      front.length := by
    rw [length_append, length_cons, Nat.add_sub_cancel]
  have hbyte : (front ++ lead :: continuations).getD front.length 0 = lead := by
    rw [getD_append_right _ _ _ _ le_rfl, Nat.sub_self]
    rfl
  have hback : ¬(front ++ lead :: continuations).length < continuations.length + 1 := by
    rw [length_append, length_cons]
    omega
  rw [dropSplitTailFrom, if_neg hback]
  dsimp only
  rw [hlength, hbyte, h]
  simp

theorem needed_le (byte : UInt8) :
  needed byte ≤ 4
  := by
  rw [needed]
  split_ifs <;> decide

/-- The last sequence of a text is left out if it is not complete. -/
theorem dropSplitTail_eq {lead : UInt8} (hlead : startsChar lead)
    (h : ∀ byte ∈ continuations, startsChar byte = false) :
  dropSplitTail (front ++ lead :: continuations) =
    if continuations.length + 1 < needed lead then front else front ++ lead :: continuations
  := by
  have hneeded := needed_le lead
  rw [dropSplitTail]
  rcases Nat.lt_or_ge continuations.length 1 with hlt | hone
  · have hzero : 1 = continuations.length + 1 := by omega
    conv_lhs => rw [hzero]
    exact dropSplitTailFrom_lead hlead _
  rw [dropSplitTailFrom_skip h one_pos hone]
  rcases Nat.lt_or_ge continuations.length 2 with hlt | htwo
  · have hlength : 2 = continuations.length + 1 := by omega
    conv_lhs => rw [hlength]
    exact dropSplitTailFrom_lead hlead _
  rw [dropSplitTailFrom_skip h Nat.two_pos htwo]
  rcases Nat.lt_or_ge continuations.length 3 with hlt | hthree
  · have hlength : 3 = continuations.length + 1 := by omega
    conv_lhs => rw [hlength]
    exact dropSplitTailFrom_lead hlead _
  rw [dropSplitTailFrom_skip h (Nat.succ_pos 2) hthree, dropSplitTailFrom, if_neg (by omega)]

theorem dropSplitTail_encode (chars : List Char) :
  dropSplitTail (encode chars) = encode chars
  := by
  rcases eq_nil_or_concat' chars with rfl | ⟨init, c, rfl⟩
  · rfl
  · obtain ⟨lead, continuations, hc, hlead, hneeded, hcontinue⟩ := utf8EncodeChar_lead c
    rw [encode_append, encode_cons, encode_nil, append_nil, hc,
      dropSplitTail_eq hlead hcontinue, if_neg (by omega)]

/-- A part of a character behind a text is left out. -/
theorem dropSplitTail_part {c : Char} {part rest : Text} (hpart : part ≠ []) (hrest : rest ≠ [])
    (h : String.utf8EncodeChar c = part ++ rest) (chars : List Char) :
  dropSplitTail (encode chars ++ part) = encode chars
  := by
  obtain ⟨lead, continuations, hc, hlead, hneeded, hcontinue⟩ := utf8EncodeChar_lead c
  obtain ⟨first, more, rfl⟩ := exists_cons_of_ne_nil hpart
  rw [hc, cons_append] at h
  obtain ⟨rfl, rfl⟩ := cons.inj h
  have hpos := length_pos_of_ne_nil hrest
  rw [dropSplitTail_eq hlead fun byte hbyte => hcontinue byte (mem_append_left _ hbyte),
    if_pos]
  rw [hneeded, length_append]
  omega

/-- What is left of the beginning of a text is the longest part of it that is a text. -/
theorem longestValid_dropSplitTail {bytes payload : Text} (h : bytes <+: payload)
    (hpayload : IsText payload) :
  LongestValid bytes (dropSplitTail bytes)
  := by
  obtain ⟨chars, rfl⟩ := hpayload
  rw [prefix_iff_eq_take] at h
  obtain ⟨kept, heq | ⟨c, part, rest, hpart, hrest, hc, heq⟩⟩ := take_encode chars bytes.length
  · rw [h, heq, dropSplitTail_encode]
    exact longestValid_self ⟨kept, rfl⟩
  · rw [h, heq, dropSplitTail_part hpart hrest hc]
    exact longestValid_append hrest hc

section

variable {validate : (text : Text) → Option (Fin text.length)}

theorem isText_append {front back : Text} (h : IsText front) (h' : IsText back) :
  IsText (front ++ back)
  := by
  obtain ⟨chars, rfl⟩ := h
  obtain ⟨chars', rfl⟩ := h'
  exact ⟨chars ++ chars', (encode_append _ _).symm⟩

theorem isText_iff_isNone (hvalidate : ReportsFirstInvalid validate) {bytes : Text} :
  (validate bytes).isNone ↔ IsText bytes
  := by
  have hreport := hvalidate bytes
  cases hresult : validate bytes with
  | none =>
    rw [hresult] at hreport
    simpa [IsText] using hreport
  | some count =>
    rw [hresult] at hreport
    simp only [Option.isNone_some, Bool.false_eq_true, false_iff]
    intro htext
    obtain ⟨⟨front, hfront⟩, hnone⟩ := hreport
    rw [← take_append_drop count bytes, hfront] at htext
    obtain ⟨chars, hchars⟩ := isText_of_encode_append htext
    cases chars with
    | nil =>
      have hlength := congrArg length hchars
      rw [length_drop, encode_nil, length_nil] at hlength
      have hlt := count.isLt
      omega
    | cons c chars =>
      rw [hchars, encode_cons, firstChar_append] at hnone
      cases hnone

/-- Whatever the bytes, their text is one. -/
theorem isText_utf8Text (hvalidate : ReportsFirstInvalid validate) (bytes : Text) :
  IsText (utf8Text validate bytes)
  := by
  induction hlength : bytes.length using Nat.strong_induction_on generalizing bytes with
  | _ length ih =>
    have hreport := hvalidate bytes
    rw [utf8Text]
    cases hresult : validate bytes with
    | none =>
      rw [hresult] at hreport
      exact hreport
    | some count =>
      rw [hresult] at hreport
      have hlt := count.isLt
      apply isText_append (isText_append hreport.1 ⟨_, rfl⟩)
      apply ih _ _ _ rfl
      rw [length_drop]
      omega

theorem isText_payloadText (hvalidate : ReportsFirstInvalid validate) (metadata : RecordMetadata)
    (bytes : Text) (cut : Bool) :
  IsText (payloadText validate metadata bytes cut).1
  := by
  rw [payloadText]
  generalize (if cut then dropSplitTail bytes else bytes) = whole
  split
  case isTrue hvalid => exact (isText_iff_isNone hvalidate).mp hvalid
  case isFalse =>
    split
    case isTrue => exact ⟨_, rfl⟩
    case isFalse => exact isText_utf8Text hvalidate _

theorem payloadText_of_isText (hvalidate : ReportsFirstInvalid validate)
    (metadata : RecordMetadata) {bytes : Text} {cut : Bool}
    (h : IsText (if cut then dropSplitTail bytes else bytes)) :
  payloadText validate metadata bytes cut = (if cut then dropSplitTail bytes else bytes, none)
  := by
  rw [payloadText]
  rw [if_pos ((isText_iff_isNone hvalidate).mpr h)]

theorem isText_truncationNote (payloadLength : ℕ) :
  IsText (truncationNote payloadLength)
  := by
  rw [truncationNote]
  exact isText_append (isText_append (isText_append (isText_append ⟨_, rfl⟩ ⟨_, rfl⟩) ⟨_, rfl⟩)
    ⟨_, rfl⟩) ⟨_, rfl⟩

/-- The bytes of a record that are kept. -/
def WarcRecord.kept (record : WarcRecord) : Text :=
  record.data.take kPayloadTextBytes

variable (validate) in
/-- The text of the payload of a record. -/
def WarcRecord.payloadText (record : WarcRecord) : Option Text :=
  (payloadItem validate record.metadata record.kept record.reported).map Prod.fst

theorem WarcRecord.payloadText_isSome_iff (record : WarcRecord) :
  (record.payloadText validate).isSome ↔ looksTextual record.metadata ∧ 0 < record.reported
  := by
  rw [WarcRecord.payloadText, payloadItem]
  split
  case isTrue h => exact iff_of_true rfl h
  case isFalse h => exact iff_of_false Bool.false_ne_true h

theorem WarcRecord.eq_of_mem_payloadText {record : WarcRecord} {text : Text}
    (h : text ∈ record.payloadText validate) :
  text = (Warc.payloadText validate record.metadata record.kept
      (record.kept.length < record.reported)).1 ++
    if record.kept.length < record.reported then truncationNote record.reported else []
  := by
  rw [WarcRecord.payloadText, payloadItem] at h
  split at h
  case isTrue =>
    rw [Option.map_some] at h
    obtain rfl := Option.some.inj h
    dsimp only
    split
    case isTrue => rfl
    case isFalse => exact (append_nil _).symm
  case isFalse => cases h

/-- The text of a payload is one whatever the payload. -/
theorem WarcRecord.isText_payloadText (hvalidate : ReportsFirstInvalid validate)
    {record : WarcRecord} {text : Text} (h : text ∈ record.payloadText validate) :
  IsText text
  := by
  rw [WarcRecord.eq_of_mem_payloadText h]
  apply isText_append (Warc.isText_payloadText hvalidate _ _ _)
  split
  case isTrue => exact isText_truncationNote _
  case isFalse => exact ⟨[], rfl⟩

/-- The bytes that came for a payload of the reported length are shown up to the last character
that is whole among those that are kept, with a note if that is not all. -/
theorem WarcRecord.payloadText_eq (hvalidate : ReportsFirstInvalid validate) {record : WarcRecord}
    {payload : Text} (hdata : record.data <+: payload) (hlength : payload.length = record.reported)
    (hpayload : IsText payload) {text : Text} (h : text ∈ record.payloadText validate) :
  ∃ shown, LongestValid record.kept shown ∧ text = shown ++
    if record.kept.length < record.reported then truncationNote record.reported else []
  := by
  have hkept : record.kept <+: payload := ( take_prefix _ _).trans hdata
  rw [WarcRecord.eq_of_mem_payloadText h]
  by_cases hcut : record.kept.length < record.reported
  · have hlongest := longestValid_dropSplitTail hkept hpayload
    refine ⟨dropSplitTail record.kept, hlongest, ?_⟩
    rw [decide_eq_true hcut, payloadText_of_isText hvalidate _ (by simpa using hlongest.valid)]
    simp
  · have hwhole : record.kept = payload :=
      hkept.eq_of_length_le (hlength.trans_le (not_lt.mp hcut))
    have htext : IsText record.kept := hwhole ▸ hpayload
    refine ⟨record.kept, longestValid_self htext, ?_⟩
    rw [decide_eq_false hcut, payloadText_of_isText hvalidate _ (by simpa using htext)]
    simp

end

/-! ### The document of the records -/

section

variable (validate : (text : Text) → Option (Fin text.length)) (timeText : Timestamp → Text)

/-- The texts of a record. -/
def WarcRecord.texts (record : WarcRecord) : List Text :=
  metadataTexts timeText record.metadata record.reported ++ (record.payloadText validate).toList

/-- The items of texts in a group, from a place on. -/
def textItems (group : ℕ) : ℕ → List Text → List TextItem
  | _, [] => []
  | start, text :: rest =>
    { selfRef := slotRef kTexts start, parent := slotRef kGroups group, orig := text, text } ::
      textItems group (start + 1) rest

/-- The group of a record, with the items in it. -/
def blockOf (index start : ℕ) (record : WarcRecord) : GroupItem × List TextItem :=
  let texts := record.texts validate timeText
  ({ selfRef := slotRef kGroups index
     parent := "#/body"
     name := groupName record.metadata
     children := (List.range' start texts.length).map (slotRef kTexts) },
    textItems index start texts)

/-- The groups of records, one behind the other. -/
def blocksFrom : ℕ → ℕ → List WarcRecord → List (GroupItem × List TextItem)
  | _, _, [] => []
  | index, start, record :: rest =>
    blockOf validate timeText index start record ::
      blocksFrom (index + 1) (start + (record.texts validate timeText).length) rest

/-- The target of a record. -/
def targetOf (metadata : RecordMetadata) : Option Text :=
  headerValue validate metadata.warcHeaders (utf8 "WARC-Target-URI")

/-- The record that the provenance of the document comes from: the first response with a target,
or the first record with one when no response has one. -/
def webRecord (records : List RecordMetadata) : Option RecordMetadata :=
  (records.find? fun metadata => isResponse metadata && (targetOf validate metadata).isSome).or
    (records.find? fun metadata => (targetOf validate metadata).isSome)

/-- The provenance of the document. -/
def webFrom (records : List RecordMetadata) : Option WebMeta :=
  (webRecord validate records).bind fun metadata =>
    (targetOf validate metadata).map (webOf validate timeText metadata)

/-- What the document is to be: a group for each record, and the provenance of one. -/
def documentOf (records : List WarcRecord) : Document :=
  let blocks := blocksFrom validate timeText 0 0 records
  { bodyChildren := (List.range records.length).map (slotRef kGroups)
    groups := blocks.map Prod.fst
    texts := blocks.flatMap Prod.snd
    web := webFrom validate timeText (records.map WarcRecord.metadata) }

end

section

variable {validate : (text : Text) → Option (Fin text.length)} {timeText : Timestamp → Text}

theorem length_textItems (group start : ℕ) (texts : List Text) :
  (textItems group start texts).length = texts.length
  := by
  induction texts generalizing start with
  | nil => rfl
  | cons text texts ih => exact congrArg (· + 1) (ih (start + 1))

/-- How many texts records have. -/
def textCount (validate : (text : Text) → Option (Fin text.length)) (timeText : Timestamp → Text)
    (records : List WarcRecord) : ℕ :=
  (records.map fun record => (record.texts validate timeText).length).sum

theorem length_blocksFrom (index start : ℕ) (records : List WarcRecord) :
  (blocksFrom validate timeText index start records).length = records.length ∧
    ((blocksFrom validate timeText index start records).flatMap Prod.snd).length =
      textCount validate timeText records
  := by
  induction records generalizing index start with
  | nil => exact ⟨rfl, rfl⟩
  | cons record records ih =>
    obtain ⟨hlength, htexts⟩ := ih (index + 1) (start + (record.texts validate timeText).length)
    constructor
    · exact congrArg (· + 1) hlength
    · rw [blocksFrom, flatMap_cons, length_append, htexts, blockOf, length_textItems]
      rfl

theorem blocksFrom_concat (index start : ℕ) (records : List WarcRecord) (record : WarcRecord) :
  blocksFrom validate timeText index start (records ++ [record]) =
    blocksFrom validate timeText index start records ++
      [blockOf validate timeText (index + records.length)
        (start + textCount validate timeText records) record]
  := by
  induction records generalizing index start with
  | nil => rfl
  | cons first records ih =>
    rw [cons_append, blocksFrom, blocksFrom, ih, cons_append, textCount, textCount,
      map_cons, sum_cons, length_cons]
    congr 4 <;> omega

theorem modify_concat {α : Type} {l : List α} {n : ℕ} (h : l.length = n) (a : α) (f : α → α) :
  (l ++ [a]).modify n f = l ++ [f a]
  := by
  subst h
  induction l with
  | nil => rfl
  | cons first l ih => exact congrArg (first :: ·) ih

/-- Texts that are added one behind the other. -/
theorem foldl_addText (group : ℕ) (texts : List Text) (document : Document) :
  texts.foldl (Document.addText group) document =
    { document with
      texts := document.texts ++ textItems group document.texts.length texts
      groups := document.groups.modify group fun item =>
        { item with children := item.children ++
            (List.range' document.texts.length texts.length).map (slotRef kTexts) } }
  := by
  induction texts generalizing document with
  | nil =>
    have hid : (fun item : GroupItem => { item with children := item.children ++
        (range' document.texts.length ([] : List Text).length).map (slotRef kTexts) }) = id := by
      funext item
      simp
    rw [hid, modify_id, textItems, append_nil]
    rfl
  | cons text texts ih =>
    rw [foldl_cons, ih]
    simp only [Document.addText, textItems, length_append, append_assoc,
      singleton_append, modify_modify_eq, length_cons,
      range'_succ, map_cons]
    congr 2
    funext item
    simp

/-! ### The record that gives the provenance -/

/-- Whether a record has a target. -/
def hasTarget (validate : (text : Text) → Option (Fin text.length)) (metadata : RecordMetadata) :
    Bool :=
  (targetOf validate metadata).isSome

/-- Whether a record is a response that has a target. -/
def answersTarget (validate : (text : Text) → Option (Fin text.length))
    (metadata : RecordMetadata) : Bool :=
  isResponse metadata && hasTarget validate metadata

variable {records : List RecordMetadata}

theorem any_hasTarget_of_any_answersTarget (h : records.any (answersTarget validate)) :
  records.any (hasTarget validate)
  := by
  rw [any_eq_true] at h ⊢
  obtain ⟨record, hrecord, hanswers⟩ := h
  exact ⟨record, hrecord, (Bool.and_eq_true_iff.mp hanswers).2⟩

theorem webFrom_concat_of_target {metadata : RecordMetadata} {target : Text}
    (htarget : targetOf validate metadata = some target)
    (hnone : records.any (answersTarget validate) = false)
    (h : records.any (hasTarget validate) → isResponse metadata) :
  webFrom validate timeText (records ++ [metadata]) =
    some (webOf validate timeText metadata target)
  := by
  have hhas : hasTarget validate metadata := by rw [hasTarget, htarget]; rfl
  have hrecord : webRecord validate (records ++ [metadata]) = some metadata := by
    have hanswers : records.find? (answersTarget validate) = none := by
      rw [find?_eq_none]
      exact any_eq_false.mp hnone
    change ((records ++ [metadata]).find? (answersTarget validate)).or
      ((records ++ [metadata]).find? (hasTarget validate)) = some metadata
    rw [find?_append, hanswers, Option.none_or]
    cases hresponse : isResponse metadata with
    | true =>
      rw [find?_cons_of_pos (by rw [answersTarget, hresponse, hhas]; rfl)]
      rfl
    | false =>
      have hany : records.find? (hasTarget validate) = none := by
        rw [find?_eq_none]
        intro record hrecord hhas
        rw [h (any_eq_true.mpr ⟨record, hrecord, hhas⟩)] at hresponse
        cases hresponse
      rw [find?_append, hany, find?_cons_of_pos hhas,
        find?_cons_of_neg (by rw [answersTarget, hresponse]; exact Bool.false_ne_true)]
      rfl
  rw [webFrom, hrecord, Option.bind_some, htarget]
  rfl

theorem webFrom_concat_of_kept {metadata : RecordMetadata}
    (h : hasTarget validate metadata = false ∨ records.any (hasTarget validate) ∧
      (records.any (answersTarget validate) ∨ isResponse metadata = false)) :
  webFrom validate timeText (records ++ [metadata]) = webFrom validate timeText records
  := by
  have hrecord : webRecord validate (records ++ [metadata]) = webRecord validate records := by
    change ((records ++ [metadata]).find? (answersTarget validate)).or
        ((records ++ [metadata]).find? (hasTarget validate)) =
      (records.find? (answersTarget validate)).or (records.find? (hasTarget validate))
    rw [find?_append, find?_append]
    rcases h with hno | ⟨hany, hanswers⟩
    · have hanswers : answersTarget validate metadata = false := by
        rw [answersTarget, hno, Bool.and_false]
      rw [find?_cons_of_neg (Bool.not_eq_true _ ▸ hanswers),
        find?_cons_of_neg (Bool.not_eq_true _ ▸ hno), find?_nil, find?_nil,
        Option.or_none, Option.or_none]
    · rw [← isSome_find?, Option.isSome_iff_exists] at hany
      obtain ⟨record, hrecord⟩ := hany
      rw [hrecord, Option.some_or]
      rcases hanswers with hanswers | hresponse
      · rw [← isSome_find?, Option.isSome_iff_exists] at hanswers
        obtain ⟨answer, hanswer⟩ := hanswers
        rw [hanswer, Option.some_or, Option.some_or]
      · rw [find?_cons_of_neg (by rw [answersTarget, hresponse]; exact Bool.false_ne_true),
          find?_nil, Option.or_none]
  rw [webFrom, webFrom, hrecord]

/-! ### The fold, record by record -/

/-- A fold that has folded records. -/
structure Folded (validate : (text : Text) → Option (Fin text.length))
    (timeText : Timestamp → Text) (fold : WarcFold) (records : List WarcRecord) : Prop where
  document : fold.document = documentOf validate timeText records
  webCaptured :
    fold.webCaptured = (records.map WarcRecord.metadata).any (hasTarget validate)
  webFromResponse :
    fold.webFromResponse = (records.map WarcRecord.metadata).any (answersTarget validate)

theorem folded_start : Folded validate timeText {} [] :=
  ⟨rfl, rfl, rfl⟩

/-- The provenance of a record more is captured. -/
theorem Folded.captureWeb {fold : WarcFold} {records : List WarcRecord}
    (h : Folded validate timeText fold records) (metadata : RecordMetadata) :
  let fold' := fold.captureWeb validate timeText metadata
  let metadatas := records.map WarcRecord.metadata ++ [metadata]
  fold'.document = { fold.document with web := webFrom validate timeText metadatas } ∧
    fold'.webCaptured = metadatas.any (hasTarget validate) ∧
    fold'.webFromResponse = metadatas.any (answersTarget validate)
  := by
  have hweb : fold.document.web = webFrom validate timeText (records.map WarcRecord.metadata) := by
    rw [h.document]
    rfl
  have himp : (records.map WarcRecord.metadata).any (answersTarget validate) →
      (records.map WarcRecord.metadata).any (hasTarget validate) :=
    any_hasTarget_of_any_answersTarget
  rw [← h.webCaptured, ← h.webFromResponse] at himp
  dsimp only
  rw [any_append, any_append, ← h.webCaptured, ← h.webFromResponse, any_cons,
    any_nil, Bool.or_false, any_cons, any_nil, Bool.or_false, WarcFold.captureWeb]
  split
  case isTrue hkept =>
    rw [Bool.and_eq_true, Bool.or_eq_true, Bool.not_eq_true'] at hkept
    obtain ⟨hcaptured, hresponse⟩ := hkept
    rw [webFrom_concat_of_kept (.inr (by rw [← h.webCaptured, ← h.webFromResponse]; exact ⟨hcaptured, hresponse⟩)), ← hweb]
    refine ⟨rfl, by rw [hcaptured, Bool.true_or], ?_⟩
    rcases hresponse with hfrom | hother
    · rw [hfrom, Bool.true_or]
    · rw [answersTarget, hother, Bool.false_and, Bool.or_false]
  case isFalse hfree =>
    rw [Bool.and_eq_true, Bool.or_eq_true, Bool.not_eq_true'] at hfree
    have hvalue : headerValue validate metadata.warcHeaders (utf8 "WARC-Target-URI") =
      targetOf validate metadata := rfl
    rw [hvalue]
    cases htarget : targetOf validate metadata with
    | none =>
      have hhas : hasTarget validate metadata = false := by rw [hasTarget, htarget]; rfl
      rw [webFrom_concat_of_kept (.inl hhas), ← hweb, answersTarget, hhas, Bool.and_false,
        Bool.or_false, Bool.or_false]
      exact ⟨rfl, rfl, rfl⟩
    | some target =>
      have hhas : hasTarget validate metadata = true := by rw [hasTarget, htarget]; rfl
      have hnone : fold.webFromResponse = false := by
        by_contra hfrom
        rw [Bool.not_eq_false] at hfrom
        exact hfree ⟨himp hfrom, .inl hfrom⟩
      have hresponse : fold.webCaptured → isResponse metadata := by
        intro hcaptured
        by_contra hother
        exact hfree ⟨hcaptured, .inr (Bool.not_eq_true _ ▸ hother)⟩
      rw [webFrom_concat_of_target htarget (h.webFromResponse ▸ hnone) (h.webCaptured ▸ hresponse),
        answersTarget, hhas, hnone, Bool.and_true, Bool.or_true, Bool.false_or]
      exact ⟨rfl, rfl, rfl⟩

theorem foldRecord_document (fold : WarcFold) (record : WarcRecord) :
  (fold.foldRecord validate timeText record.metadata record.kept record.reported).document =
    let document := (fold.captureWeb validate timeText record.metadata).document
    (record.texts validate timeText).foldl (Document.addText document.groups.length)
      (document.addGroup (groupName record.metadata))
  := by
  dsimp only
  rw [WarcRecord.texts, foldl_append, WarcRecord.payloadText, foldRecord]
  cases payloadItem validate record.metadata record.kept record.reported <;> rfl

/-- What is captured of the provenance is all that is kept besides the document. -/
theorem foldRecord_web (fold : WarcFold) (metadata : RecordMetadata) (payload : Text)
    (payloadLength : ℕ) :
  let fold' := fold.foldRecord validate timeText metadata payload payloadLength
  fold'.webCaptured = (fold.captureWeb validate timeText metadata).webCaptured ∧
    fold'.webFromResponse = (fold.captureWeb validate timeText metadata).webFromResponse
  := by
  dsimp only
  rw [foldRecord]
  cases payloadItem validate metadata payload payloadLength <;> exact ⟨rfl, rfl⟩

theorem documentOf_concat (records : List WarcRecord) (record : WarcRecord) :
  documentOf validate timeText (records ++ [record]) =
    (record.texts validate timeText).foldl (Document.addText records.length)
      (Document.addGroup
        { documentOf validate timeText records with
          web := webFrom validate timeText
            (records.map WarcRecord.metadata ++ [record.metadata]) }
        (groupName record.metadata))
  := by
  obtain ⟨hgroups, htexts⟩ :=
    length_blocksFrom 0 0 records
  rw [foldl_addText, documentOf, documentOf, blocksFrom_concat, map_append, map_append,
    flatMap_append, length_append, length_singleton, range_succ,
    map_append, Nat.zero_add, Nat.zero_add]
  unfold Document.addGroup
  dsimp only
  rw [length_map, hgroups, htexts]
  congr 1
  · rw [modify_concat ((length_map _).trans hgroups)]
    rfl
  · rw [flatMap_singleton]
    rfl

/-- A record more is folded. -/
theorem Folded.foldRecord {fold : WarcFold} {records : List WarcRecord}
    (h : Folded validate timeText fold records) (record : WarcRecord) :
  Folded validate timeText
    (fold.foldRecord validate timeText record.metadata record.kept record.reported)
    (records ++ [record])
  := by
  obtain ⟨hdocument, hcaptured, hresponse⟩ := h.captureWeb record.metadata
  obtain ⟨hcaptured', hresponse'⟩ :=
    foldRecord_web fold record.metadata record.kept
      record.reported
  constructor
  case document =>
    have hgroups : fold.document.groups.length = records.length := by
      rw [h.document]
      exact (length_map _).trans (length_blocksFrom 0 0 records).1
    rw [foldRecord_document, documentOf_concat, hdocument, ← h.document]
    dsimp only
    rw [hgroups]
  case webCaptured => rw [hcaptured', hcaptured, map_append]; rfl
  case webFromResponse => rw [hresponse', hresponse, map_append]; rfl

/-- The record that is open in a fold. -/
structure Opened (fold : WarcFold) (opened : Option (RecordMetadata × Text)) : Prop where
  recordOpen : fold.recordOpen = opened.isSome
  current : ∀ record ∈ opened, fold.current = record.1 ∧
    fold.payload = record.2.take kPayloadTextBytes

theorem opened_none (h : fold.recordOpen = false) : Opened fold none :=
  ⟨h, fun _ hnone => by cases hnone⟩

/-- The record that is open is folded. -/
theorem Folded.concat {fold : WarcFold} {records : List WarcRecord}
    (h : Folded validate timeText fold records) {record : RecordMetadata × Text}
    (hopened : Opened fold (some record)) (payloadLength : ℕ) :
  Folded validate timeText
    (fold.foldRecord validate timeText fold.current fold.payload payloadLength)
    (records ++ [⟨record.1, record.2, payloadLength⟩])
  := by
  obtain ⟨hcurrent, hpayload⟩ := hopened.current record rfl
  rw [hcurrent, hpayload]
  exact h.foldRecord ⟨record.1, record.2, payloadLength⟩

/-- The record that is open is folded with the length it announces, as no end of it came. -/
theorem Folded.concat_unended {records : List WarcRecord}
    (h : Folded validate timeText fold records) {record : RecordMetadata × Text}
    (hopened : Opened fold (some record)) :
  Folded validate timeText
    (fold.foldRecord validate timeText fold.current fold.payload fold.current.contentLength)
    (records ++ unended (some record))
  := by
  have hlength : fold.current.contentLength = record.1.contentLength :=
    congrArg RecordMetadata.contentLength (hopened.current record rfl).1
  rw [hlength]
  exact h.concat hopened record.1.contentLength

theorem Opened.append {fold : WarcFold} {record : RecordMetadata × Text}
    (hopened : Opened fold (some record)) (data : Text) :
  Opened (fold.append data) (some (record.1, record.2 ++ data))
  := by
  obtain ⟨hcurrent, hpayload⟩ := hopened.current record rfl
  constructor
  case recordOpen => exact hopened.recordOpen
  case current =>
    rintro _ ⟨⟩
    refine ⟨hcurrent, ?_⟩
    rw [WarcFold.append, hpayload, take_append, length_take]
    dsimp only
    congr 2
    omega

/-- The records that an event ends are folded, and the one that is open behind it is in the
state. -/
theorem Folded.handleEvent {fold : WarcFold} {records : List WarcRecord}
    {opened : Option (RecordMetadata × Text)} (h : Folded validate timeText fold records)
    (hopened : Opened fold opened) (event : Event) :
  ∃ ended opened', (∀ rest, recordsFrom opened (event :: rest) = ended ++ recordsFrom opened' rest) ∧
    Folded validate timeText (fold.handleEvent validate timeText event) (records ++ ended) ∧
    Opened (fold.handleEvent validate timeText event) opened'
  := by
  cases event with
  | recordStart metadata =>
    refine ⟨unended opened, some (metadata, []), fun rest => rfl, ?_, rfl, ?_⟩
    · rw [WarcFold.handleEvent, hopened.recordOpen]
      cases opened with
      | none =>
        rw [unended, Option.map_none, Option.toList_none, append_nil]
        exact ⟨h.document, h.webCaptured, h.webFromResponse⟩
      | some record =>
        have hended := h.concat_unended hopened
        exact ⟨hended.document, hended.webCaptured, hended.webFromResponse⟩
    · rintro _ ⟨⟩
      exact ⟨rfl, rfl⟩
  | payloadChunk data =>
    refine ⟨[], opened.map fun record => (record.1, record.2 ++ data), fun rest => rfl, ?_⟩
    rw [append_nil]
    cases opened with
    | none =>
      rw [handleEvent_payloadChunk_closed hopened.recordOpen]
      exact ⟨h, hopened⟩
    | some record =>
      rw [handleEvent_payloadChunk hopened.recordOpen]
      exact ⟨⟨h.document, h.webCaptured, h.webFromResponse⟩, hopened.append data⟩
  | recordEnd payloadLength =>
    refine ⟨(opened.map fun record => ⟨record.1, record.2, payloadLength⟩).toList, none,
      fun rest => rfl, ?_⟩
    rw [WarcFold.handleEvent, hopened.recordOpen]
    cases opened with
    | none =>
      rw [Option.map_none, Option.toList_none, append_nil]
      exact ⟨h, hopened⟩
    | some record =>
      have hended := h.concat hopened payloadLength
      exact ⟨⟨hended.document, hended.webCaptured, hended.webFromResponse⟩, opened_none rfl⟩
  | recordError error =>
    refine ⟨[], opened, fun rest => rfl, ?_⟩
    rw [append_nil]
    exact ⟨⟨h.document, h.webCaptured, h.webFromResponse⟩, hopened.recordOpen, hopened.current⟩
  | kindNotSet =>
    refine ⟨[], opened, fun rest => rfl, ?_⟩
    rw [append_nil]
    exact ⟨h, hopened⟩

/-- At the end of the stream the document is that of the records. -/
theorem Folded.document_close {records : List WarcRecord}
    {opened : Option (RecordMetadata × Text)} (h : Folded validate timeText fold records)
    (hopened : Opened fold opened) (events : List Event) :
  ((events.foldl (WarcFold.handleEvent validate timeText) fold).close validate timeText).document =
    documentOf validate timeText (records ++ recordsFrom opened events)
  := by
  induction events generalizing fold records opened with
  | nil =>
    rw [foldl_nil, close, recordsFrom, hopened.recordOpen]
    cases opened with
    | none =>
      rw [unended, Option.map_none, Option.toList_none, append_nil]
      exact h.document
    | some record => exact (h.concat_unended hopened).document
  | cons event events ih =>
    obtain ⟨ended, opened', hrecords, hfolded, hopened'⟩ := h.handleEvent hopened event
    rw [foldl_cons, ih hfolded hopened', hrecords, append_assoc]

/-- The document of a stream is that of its records. -/
theorem collect_document (responses : List ParseWarcResponse) :
  (collect validate timeText responses).1 =
    documentOf validate timeText (recordsOf (eventsOf responses))
  := by
  rw [collect, handleAll_eq]
  exact folded_start.document_close (opened_none rfl) (eventsOf responses)

/-- What is to be made of a stream: the same however it is cut, a group for each record that
starts, the characters of a payload that are whole among the bytes that are kept, and the provenance
of one record.  The payload of a record has the reported length and begins with the bytes that
came, which are not all of it when the record is cut off. -/
structure FoldsRecords (validate : (text : Text) → Option (Fin text.length))
    (timeText : Timestamp → Text) (responses : List ParseWarcResponse) : Prop where
  uncut : ∀ recut, Relation.EqvGen Recut (eventsOf responses) (eventsOf recut) →
    collect validate timeText responses = collect validate timeText recut
  document : (collect validate timeText responses).1 =
    documentOf validate timeText (recordsOf (eventsOf responses))
  groups : (collect validate timeText responses).1.groups.map GroupItem.name =
    (startsOf (eventsOf responses)).map groupName
  textual : ∀ record ∈ recordsOf (eventsOf responses),
    (record.payloadText validate).isSome ↔ looksTextual record.metadata ∧ 0 < record.reported
  valid : ∀ record ∈ recordsOf (eventsOf responses), ∀ text ∈ record.payloadText validate,
    IsText text
  longest : ∀ record ∈ recordsOf (eventsOf responses), ∀ text ∈ record.payloadText validate,
    ∀ payload, record.data <+: payload → payload.length = record.reported → IsText payload →
      ∃ shown, LongestValid (record.data.take kPayloadTextBytes) shown ∧ text = shown ++
        if (record.data.take kPayloadTextBytes).length < payload.length then
          truncationNote payload.length
        else []
  web : (collect validate timeText responses).1.web =
    webFrom validate timeText (startsOf (eventsOf responses))

theorem map_name_blocksFrom (index start : ℕ) (records : List WarcRecord) :
  ((blocksFrom validate timeText index start records).map Prod.fst).map GroupItem.name =
    (records.map WarcRecord.metadata).map groupName
  := by
  induction records generalizing index start with
  | nil => rfl
  | cons record records ih => exact congrArg (groupName record.metadata :: ·) (ih _ _)

/-- The fold makes of a stream what is to be made of its records. -/
theorem collect_foldsRecords (hvalidate : ReportsFirstInvalid validate)
    (timeText : Timestamp → Text) (responses : List ParseWarcResponse) :
  FoldsRecords validate timeText responses
  := by
  constructor
  case uncut => exact fun _ hrecut => collect_eq_of_recut hrecut
  case document => exact collect_document responses
  case groups =>
    rw [collect_document, documentOf, map_name_blocksFrom, map_metadata_recordsOf]
  case textual => exact fun record _ => record.payloadText_isSome_iff
  case valid => exact fun _ _ _ htext => WarcRecord.isText_payloadText hvalidate htext
  case longest =>
    intro record _ text htext payload hdata hlength hpayload
    rw [hlength]
    exact WarcRecord.payloadText_eq hvalidate hdata hlength hpayload htext
  case web => rw [collect_document, documentOf, map_metadata_recordsOf]

theorem collect_foldsRecords_unended :
  FoldsRecords firstInvalid (fun _ => [])
    [.one (.recordStart { recordType := kResponse, contentLength := 3 }),
      .batch [.one (.payloadChunk [0x61, 0xc3]), .one .kindNotSet], .one (.payloadChunk [0xa9])]
  := collect_foldsRecords firstInvalid_reports _ _

end

end GRParse.Warc
