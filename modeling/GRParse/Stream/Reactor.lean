import GRParse.Document.PageFold
import GRParse.Lib.Wire
import GRParse.Stream.Status

/-!
# The stream reactor

`DocumentStreamReactor` merges what the collectors of a call deliver into one stream of
events.  Its handlers run under one mutex, so each is one function on its state.  What it
does to its surroundings, it appends to a history: writes, the end of the stream, and calls
on the scheduler's ticket.

The passes over pages and documents that only fill events are parameters, the `Passes`.
-/

namespace GRParse

open Containers Protobuf Stream

/-! ### Failure categories -/

inductive FailureCategory where
  | unspecified
  | policy
  | capacity
  | sourceUnavailable
  | targetUnavailable
  | timeout
  | internal
  | backendFailure
  | inferenceFailure
  | unknown
  deriving DecidableEq, Repr

/-- `failure_category_for`. -/
def failureCategoryFor : StatusCode → FailureCategory
  | .deadlineExceeded => .timeout
  | .resourceExhausted => .capacity
  | .unavailable | .invalidArgument | .failedPrecondition | .unimplemented | .outOfRange =>
    .backendFailure
  | .cancelled | .internal | .unknown | .dataLoss => .internal
  | _ => .unknown

structure CollectorFailure where
  collector : Collector
  error : String
  category : FailureCategory
  deriving DecidableEq, Repr

/-! ### Events -/

/-- Where the next page continues the references and the text of the stream. -/
structure AssemblyCursor where
  textIndex : ℕ := 0
  tableIndex : ℕ := 0
  pictureIndex : ℕ := 0
  utfOffset : ℕ := 0
  hasText : Bool := false

/-- What the reactor calls to fill its events. -/
structure Passes where
  /-- A page as the scheduler delivers it. -/
  OcrPage : Type
  HeaderHeight : Type
  PageConfidence : Type
  ConfidenceScores : Type
  /-- `append_page_data`: the event of a page, with the cursor and the warnings after it; no
  event when it throws. -/
  appendPageData : OcrPage → ℤ → AssemblyCursor → List String →
    AssemblyCursor × List String × Option PageData
  /-- The event of a page carries the number it was asked for. -/
  pageNumber_appendPageData : ∀ {page pageNumber cursor warnings cursor' warnings' data},
    appendPageData page pageNumber cursor warnings = (cursor', warnings', some data) →
      data.pageNumber = pageNumber
  pageConfidence : OcrPage → ℤ → PageConfidence
  collectHeaderHeights : PageData → List HeaderHeight → List HeaderHeight
  sectionHeaderLevels : List HeaderHeight → Map String ℤ
  documentConfidence : List PageConfidence → Option ConfidenceScores
  /-- The repair pass on a collector's document, with the renaming it applies; the document
  itself when no pass is configured. -/
  repairOutcome : Document → Document × RefMap
  /-- `check_structure`: its status and its findings. -/
  checkStructure : Document → Status × List Message
  /-- What runs on the fold of the streamed pages, with or without pages of the scheduler
  among them; the text of the exception when it throws. -/
  repairFold : Bool → Document → Except String (Document × RefMap)

/-- The source of a document. -/
structure DocumentOrigin where
  filename : String
  mimetype : String
  mimetypeEvidence : String
  binaryHash : ℕ
  deriving DecidableEq, Repr

structure DocumentComplete (π : Passes) where
  origin : DocumentOrigin
  collectorFailures : List CollectorFailure
  sectionHeaderLevels : Map String ℤ
  warnings : List String
  confidence : Option π.ConfidenceScores

structure CollectorDocument where
  collector : Collector
  document : Document
  warnings : List String
  structureFindings : List Message

/-- What an event of the stream carries. -/
inductive Payload (π : Passes) where
  | page (data : PageData)
  | complete (complete : DocumentComplete π)
  | collectorDocument (document : CollectorDocument)
  | repair (delta : DocumentRepairDelta)

/-- An event of the stream.  Its address tells it from other events with the same content. -/
structure ArenaEvent (π : Passes) where
  address : ℕ
  documentId : String
  totalPages : ℤ
  payload : Payload π
  schedulerCredit : Bool := false

/-- Whether an event is the terminal one. -/
def ArenaEvent.isComplete {π : Passes} (event : ArenaEvent π) : Bool :=
  match event.payload with
  | .complete _ => true
  | .page _ | .collectorDocument _ | .repair _ => false

/-- Calls on the ticket of the scheduler. -/
inductive TicketCall where
  | release
  | cancel
  deriving DecidableEq, Repr

/-! ### The reactor -/

/-- The state of the reactor from the start of the plan, with the history of what it did.  The
first fields do not change. -/
structure Reactor (π : Passes) where
  documentId : String
  origin : DocumentOrigin
  slimCollectorDocuments : Bool
  maximumBufferedPages : ℕ
  ticketValid : Bool := false
  completedPages : Map ℤ π.OcrPage := ∅
  events : List (ArenaEvent π) := []
  assemblyCursor : AssemblyCursor := {}
  headerHeights : List π.HeaderHeight := []
  streamFold : PageFold := {}
  foldHasCv : Bool := false
  foldSettled : Bool := false
  pageScores : List π.PageConfidence := []
  assemblyWarnings : List String := []
  finishStatus : Status := {}
  collectorFailures : List CollectorFailure := []
  firstFailureStatus : Status := {}
  pendingParts : ℕ := 0
  succeededParts : ℕ := 0
  totalPages : ℤ := 0
  nextPage : ℤ := 1
  bufferedPages : ℕ := 0
  writeInFlight : Bool := false
  clientCancelled : Bool := false
  ticketCancelled : Bool := false
  finishRequested : Bool := false
  finishStarted : Bool := false
  allocated : ℕ := 0
  history : List (Action (ArenaEvent π) Status TicketCall) := []

/-- A collector's output, or the reason it could not contribute. -/
structure CollectorOutcome where
  success : Bool := false
  error : String := ""
  code : StatusCode := .internal
  warnings : List String := []
  document : Document := {}

/-- A page's share of the inspector's document. -/
structure PdfPageSlice where
  pageNo : ℤ
  pageCount : ℤ
  document : Document

/-- What a delivery comes to: the page is accepted, or it is refused because the call is
gone, or the reactor throws. -/
inductive DeliveryResult where
  | accepted
  | cancelled
  | thrown
  deriving DecidableEq, Repr

namespace Reactor

variable {π : Passes}

/-- The reactor having done something. -/
def record (s : Reactor π) (action : Action (ArenaEvent π) Status TicketCall) : Reactor π :=
  { s with history := s.history ++ [action] }

/-- `events_.push_back` of a new event. -/
def pushEvent (s : Reactor π) (payload : Payload π) (schedulerCredit : Bool) : Reactor π :=
  { s with
    events := s.events ++ [⟨s.allocated, s.documentId, s.totalPages, payload, schedulerCredit⟩]
    allocated := s.allocated + 1 }

/-! ### Writing and finishing -/

/-- `pump_locked`. -/
def pump (s : Reactor π) : Reactor π :=
  match s.writeInFlight, s.events with
  | false, event :: _ => { s with writeInFlight := true }.record (.startWrite event)
  | false, [] =>
    if s.finishRequested && !s.finishStarted then
      { s with finishStarted := true }.record (.finish s.finishStatus)
    else s
  | true, _ => s

/-- `cancel_ticket_locked`. -/
def cancelTicket (s : Reactor π) : Reactor π :=
  if s.ticketCancelled || !s.ticketValid then s
  else { s with ticketCancelled := true }.record (.call .cancel)

/-- `request_finish_locked`: the first status stands, but a failure replaces an OK as long as
the stream is not finished. -/
def requestFinish (s : Reactor π) (status : Status) : Reactor π :=
  if s.finishStarted then s
  else if s.finishRequested then
    if s.finishStatus.ok && !status.ok then
      ({ s with finishStatus := status }.cancelTicket).pump
    else s.pump
  else
    let s := { s with finishRequested := true, finishStatus := status }
    (if status.ok then s else s.cancelTicket).pump

/-- The event whose write is done leaves the queue. -/
def popEvent (s : Reactor π) (front : ArenaEvent π) (rest : List (ArenaEvent π)) (ok : Bool) :
    Reactor π :=
  { s with
    bufferedPages := if front.schedulerCredit then s.bufferedPages - 1 else s.bufferedPages
    events := rest
    writeInFlight := false }.record (.writeDone ok)

/-- `OnWriteDone`. -/
def onWriteDone (s : Reactor π) (ok : Bool) : Reactor π :=
  match s.events with
  | [] => s.requestFinish ⟨.internal, "write completed without an event"⟩
  | front :: rest =>
    let s := s.popEvent front rest ok
    if ok then (if front.schedulerCredit then s.record (.call .release) else s).pump
    else
      { s with clientCancelled := true, events := [], bufferedPages := 0 }.requestFinish
        ⟨.cancelled, "client stopped reading"⟩

/-- `OnCancel`. -/
def onCancel (s : Reactor π) : Reactor π :=
  { s with clientCancelled := true }.requestFinish ⟨.cancelled, "request cancelled"⟩

/-! ### Parts -/

/-- `record_part_failure_locked`. -/
def recordPartFailure (s : Reactor π) (collector : Collector) (status : Status) : Reactor π :=
  { s with
    collectorFailures :=
      s.collectorFailures ++ [⟨collector, status.message, failureCategoryFor status.code⟩]
    firstFailureStatus := if s.firstFailureStatus.ok then status else s.firstFailureStatus }

/-- `apply_section_header_levels`. -/
def applySectionHeaderLevels (levels : Map String ℤ) (document : Document) : Document :=
  { document with
    texts := document.texts.map fun
      | .based (.sectionHeader level) base rest =>
        let level := (levels.lookup (base.getD {}).selfRef).getD level
        .based (.sectionHeader level) base rest
      | text => text }

/-- `emit_fold_delta_locked`: what the passes over the whole fold of the streamed pages change
goes out as a repair event. -/
def emitFoldDelta (s : Reactor π) (levels : Map String ℤ) : Reactor π :=
  if s.streamFold.pages = 0 || s.foldSettled then s
  else
    let before := applySectionHeaderLevels levels s.streamFold.document
    let s := { s with foldSettled := true }
    match π.repairFold s.foldHasCv before with
    | .ok (after, renamed) =>
      match repairDelta before after renamed (if s.foldHasCv then .grparseCv else .pdf) with
      | some delta => s.pushEvent (.repair delta) false
      | none => s
    | .error what =>
      { s with
        assemblyWarnings :=
          s.assemblyWarnings ++ ["the streamed pages' repair event was skipped: " ++ what] }

/-- The terminal event. -/
def completeEvent (s : Reactor π) (levels : Map String ℤ) : DocumentComplete π where
  origin := s.origin
  collectorFailures := s.collectorFailures
  sectionHeaderLevels := levels
  warnings := s.assemblyWarnings
  confidence := π.documentConfidence s.pageScores

/-- `part_done_locked`: when the last part lands the terminal event ends the stream, unless
every part failed. -/
def partDone (s : Reactor π) : Reactor π :=
  let s := { s with pendingParts := s.pendingParts - 1 }
  if 0 < s.pendingParts || s.finishRequested then s
  else if s.succeededParts = 0 then
    s.requestFinish (if s.firstFailureStatus.ok then ⟨.internal, "every collector failed"⟩
      else s.firstFailureStatus)
  else
    let levels := if s.headerHeights.isEmpty then ∅ else π.sectionHeaderLevels s.headerHeights
    let s := s.emitFoldDelta levels
    (s.pushEvent (.complete (s.completeEvent levels)) false).requestFinish {}

/-! ### Pages -/

/-- `on_document`: the pages the scheduler will deliver come after those already streamed. -/
def onDocument (s : Reactor π) (totalPages : ℤ) : Reactor π :=
  { s with totalPages := (s.nextPage - 1) + totalPages }

/-- A page that goes out ahead of the scheduler's is folded as a client folds it. -/
def streamPage (s : Reactor π) (page : PageData) : Reactor π :=
  { s with streamFold := s.streamFold.fold page }.pushEvent (.page page) false

/-- The pages a slice is projected to.  A page with nothing on it still goes out. -/
def slicePages (slice : PdfPageSlice) (pages : List PageData) : List PageData :=
  if pages.isEmpty then
    [{ pageNumber := slice.pageNo, pageMeta := some { pageNo := slice.pageNo } }]
  else pages

/-- `on_streamed_page`: false once the call is gone or finishing. -/
def onStreamedPage (s : Reactor π) (slice : PdfPageSlice) : Reactor π × Bool :=
  if s.clientCancelled || s.finishRequested then (s, false)
  else
    let (pages, utfOffset) :=
      projectPageData slice.document .digitalPdf s.assemblyCursor.utfOffset
    let cursor := s.assemblyCursor
    let s := { s with
      totalPages := max (max s.totalPages slice.pageCount) slice.pageNo
      assemblyCursor :=
        { textIndex := cursor.textIndex + slice.document.texts.length
          tableIndex := cursor.tableIndex + slice.document.tables.length
          pictureIndex := cursor.pictureIndex + slice.document.pictures.length
          utfOffset := utfOffset
          hasText := cursor.hasText || !slice.document.texts.isEmpty } }
    let s := (slicePages slice pages).foldl streamPage s
    ({ s with nextPage := slice.pageNo + 1 }.pump, true)

/-- The event of the next page is queued, and the page no longer waits. -/
def queuePage (s : Reactor π) (page : π.OcrPage) (data : PageData) : Reactor π :=
  { s.pushEvent (.page data) true with
    pageScores := s.pageScores ++ [π.pageConfidence page s.nextPage]
    streamFold := s.streamFold.fold data
    foldHasCv := true
    headerHeights := π.collectHeaderHeights data s.headerHeights
    completedPages := s.completedPages.erase s.nextPage
    nextPage := s.nextPage + 1 }

/-- The next page, which has been delivered, becomes an event; false when that throws. -/
def encodePage (s : Reactor π) (page : π.OcrPage) : Reactor π × Bool :=
  let (cursor, warnings, data) :=
    π.appendPageData page s.nextPage s.assemblyCursor s.assemblyWarnings
  let s := { s with assemblyCursor := cursor, assemblyWarnings := warnings }
  match data with
  | none => (s, false)
  | some data => (s.queuePage page data, true)

/-- The loop of `on_page`.  Each round takes a page out of the delivered ones, so as many
rounds as there are pages suffice. -/
def encodeReady : ℕ → Reactor π → Reactor π × Bool
  | 0, s => (s, true)
  | rounds + 1, s =>
    match s.completedPages.lookup s.nextPage with
    | none => (s, true)
    | some page =>
      let encoded := s.encodePage page
      if encoded.2 then encodeReady rounds encoded.1 else encoded

/-- Whether `on_page` finds the buffer full. -/
def bufferFull (s : Reactor π) : Bool :=
  s.maximumBufferedPages ≤ s.bufferedPages

/-- All but the event that is being written is dropped. -/
def dropWaiting (s : Reactor π) : Reactor π :=
  match s.writeInFlight, s.events with
  | true, front :: _ =>
    { s with
      completedPages := ∅
      events := [front]
      bufferedPages := if front.schedulerCredit then 1 else 0 }
  | _, _ => { s with completedPages := ∅, events := [], bufferedPages := 0 }

/-- What `on_page` does when the buffer is full. -/
def overflow (s : Reactor π) : Reactor π :=
  s.dropWaiting.requestFinish
    ⟨.resourceExhausted,
      "client did not consume page events within the bounded stream buffer"⟩

/-- A delivered page waits for its turn; a page of a number that waits already does not
replace it. -/
def park (s : Reactor π) (pageNumber : ℤ) (page : π.OcrPage) : Reactor π :=
  { s with
    bufferedPages := s.bufferedPages + 1
    completedPages :=
      if pageNumber ∈ s.completedPages then s.completedPages
      else s.completedPages.insert pageNumber page }

/-- `on_page`. -/
def onPage (s : Reactor π) (pageNumber : ℤ) (page : π.OcrPage) : Reactor π × DeliveryResult :=
  if s.clientCancelled then (s, .cancelled)
  else if s.bufferFull then (s.overflow, .cancelled)
  else
    let s := s.park pageNumber page
    let encoded := s.encodeReady s.completedPages.keys.card
    if encoded.2 then (encoded.1.pump, .accepted) else (encoded.1, .thrown)

/-- `on_scheduler_finish`, with what the exception maps to, OK when there is none. -/
def onSchedulerFinish (s : Reactor π) (contextCancelled : Bool) (failure : Status) :
    Reactor π :=
  if s.clientCancelled || contextCancelled then
    s.requestFinish ⟨.cancelled, "request cancelled"⟩
  else
    let status : Status :=
      if failure.ok ∧ (s.nextPage ≠ s.totalPages + 1 ∨ s.completedPages.keys ≠ ∅) then
        ⟨.internal, "scheduler completed before every page was assembled"⟩
      else failure
    let s :=
      if status.ok then { s with succeededParts := s.succeededParts + 1 }
      else s.recordPartFailure .grparseCv status
    s.partDone.pump

/-! ### Collectors -/

/-- `slim`: what is dropped from a document whose pages went out. -/
def slim (document : Document) : Document :=
  { document with
    texts := []
    tables := []
    pictures := []
    groups := []
    pages := ∅
    body := some { document.body.getD {} with children := [] }
    furniture := some { document.furniture.getD {} with children := [] } }

/-- The pages a collector's document is projected to when it lands. -/
def collectorPages (collector : Collector) (document : Document) (pagesStreamed : Bool) :
    List PageData :=
  if pagesStreamed then []
  else (projectPageData document (if collector = .pdf then .digitalPdf else .unspecified) 0).1

/-- What a client folding the pages of a collector still lacks. -/
def collectorDelta (s : Reactor π) (collector : Collector) (document : Document)
    (renamed : RefMap) (pages : List PageData) (pagesStreamed : Bool) :
    Option DocumentRepairDelta :=
  if pagesStreamed then
    if !s.foldHasCv && !s.foldSettled then
      repairDelta s.streamFold.document document renamed collector
    else none
  else if pages.isEmpty then none
  else repairDelta (pages.foldl PageFold.fold {}).document document ∅ collector

/-- The events of a collector's document: its pages, what they lack, and the document. -/
def emitCollector (s : Reactor π) (collector : Collector) (document : Document)
    (renamed : RefMap) (warnings : List String) (findings : List Message)
    (pagesStreamed : Bool) : Reactor π :=
  let pages := collectorPages collector document pagesStreamed
  let delta := s.collectorDelta collector document renamed pages pagesStreamed
  let s := { s with
    foldSettled := s.foldSettled || pagesStreamed && !s.foldHasCv
    totalPages := if pages.isEmpty then s.totalPages else max s.totalPages pages.length }
  let s := pages.foldl (fun s page => s.pushEvent (.page page) false) s
  let s := match delta with
    | some delta => s.pushEvent (.repair delta) false
    | none => s
  let paged := pagesStreamed || !pages.isEmpty
  let document := if paged && s.slimCollectorDocuments then slim document else document
  { s.pushEvent (.collectorDocument ⟨collector, document, warnings, findings⟩) false with
    succeededParts := s.succeededParts + 1 }

/-- `on_collector_done`. -/
def onCollectorDone (s : Reactor π) (collector : Collector) (outcome : CollectorOutcome)
    (pagesStreamed : Bool) : Reactor π :=
  let (document, renamed) :=
    if outcome.success then π.repairOutcome outcome.document else (outcome.document, ∅)
  let (structureStatus, findings) :=
    if outcome.success then π.checkStructure document else ({}, [])
  if s.clientCancelled || s.finishRequested then s
  else if !structureStatus.ok then s.requestFinish structureStatus
  else
    let s :=
      if outcome.success then
        s.emitCollector collector document renamed outcome.warnings findings pagesStreamed
      else s.recordPartFailure collector ⟨outcome.code, outcome.error⟩
    s.partDone.pump

/-- `submit_cv`, with the status of the exception when the scheduler does not take the
document. -/
def submitCv (s : Reactor π) (failure : Option Status) : Reactor π :=
  match failure with
  | none =>
    let s := { s with ticketValid := true }
    if s.finishRequested then s.cancelTicket else s
  | some status => (s.recordPartFailure .grparseCv status).partDone.pump

/-- `note_streamed_prefix`. -/
def noteStreamedPrefix (s : Reactor π) (firstLeft : ℤ) : Reactor π :=
  { s with
    assemblyWarnings := s.assemblyWarnings ++
      ["pages 1-" ++ toString (firstLeft - 1) ++
        " streamed from the pdf inspector's text layer as they were read; pages " ++
        toString firstLeft ++ " onward went through the CV path"] }

/-- `note_pdf_fallback`. -/
def notePdfFallback (s : Reactor π) (outcome : CollectorOutcome) : Reactor π :=
  s.recordPartFailure .pdf
    ⟨outcome.code, outcome.error ++ "; fell back to the in-process CV path"⟩

end Reactor

/-! ### Calls -/

/-- A call of one of the handlers. -/
inductive Call (π : Passes) where
  | writeDone (ok : Bool)
  | cancel
  | document (totalPages : ℤ)
  | streamedPage (slice : PdfPageSlice)
  | page (pageNumber : ℤ) (page : π.OcrPage)
  | schedulerFinish (contextCancelled : Bool) (failure : Status)
  | collectorDone (collector : Collector) (outcome : CollectorOutcome) (pagesStreamed : Bool)
  | submitCv (failure : Option Status)
  | streamedPrefix (firstLeft : ℤ)
  | pdfFallback (outcome : CollectorOutcome)

/-- The reactor after a call. -/
def Reactor.handle {π : Passes} (s : Reactor π) : Call π → Reactor π
  | .writeDone ok => s.onWriteDone ok
  | .cancel => s.onCancel
  | .document totalPages => s.onDocument totalPages
  | .streamedPage slice => (s.onStreamedPage slice).1
  | .page pageNumber page => (s.onPage pageNumber page).1
  | .schedulerFinish contextCancelled failure => s.onSchedulerFinish contextCancelled failure
  | .collectorDone collector outcome pagesStreamed =>
    s.onCollectorDone collector outcome pagesStreamed
  | .submitCv failure => s.submitCv failure
  | .streamedPrefix firstLeft => s.noteStreamedPrefix firstLeft
  | .pdfFallback outcome => s.notePdfFallback outcome

/-- The reactor when the plan of the call starts. -/
structure Reactor.Fresh {π : Passes} (s : Reactor π) : Prop where
  ticketValid : s.ticketValid = false
  completedPages : s.completedPages = ∅
  events : s.events = []
  bufferedPages : s.bufferedPages = 0
  nextPage : s.nextPage = 1
  writeInFlight : s.writeInFlight = false
  clientCancelled : s.clientCancelled = false
  finishRequested : s.finishRequested = false
  finishStarted : s.finishStarted = false
  history : s.history = []

/-- The reactor after calls that are each allowed where they come. -/
inductive Reactor.Runs {π : Passes} (allowed : Reactor π → Call π → Prop) :
    Reactor π → Reactor π → Prop where
  | refl (s : Reactor π) : Runs allowed s s
  | step {s s' : Reactor π} (run : Runs allowed s s') (call : Call π) (h : allowed s' call) :
      Runs allowed s (s'.handle call)

/-- What holds at the start of a run, and is preserved by the calls allowed, holds at its end. -/
theorem Reactor.Runs.invariant {π : Passes} {allowed : Reactor π → Call π → Prop}
    {P : Reactor π → Prop} (hstep : ∀ s call, P s → allowed s call → P (s.handle call))
    {s s' : Reactor π} (hrun : Runs allowed s s') (hs : P s) :
  P s'
  := by
  induction hrun with
  | refl => exact hs
  | step _ call h ih => exact hstep _ call ih h

/-! ### A small reactor -/

/-- Passes that leave every page blank, and say of every document what they are told. -/
def blankPasses (structureStatus : Status) : Passes where
  OcrPage := Unit
  HeaderHeight := Unit
  PageConfidence := Unit
  ConfidenceScores := Unit
  appendPageData _ pageNumber cursor warnings :=
    (cursor, warnings, some { pageNumber := pageNumber })
  pageNumber_appendPageData := by
    intro _ pageNumber cursor warnings cursor' warnings' data h
    cases h
    rfl
  pageConfidence _ _ := ()
  collectHeaderHeights _ heights := heights
  sectionHeaderLevels _ := ∅
  documentConfidence _ := none
  repairOutcome document := (document, ∅)
  checkStructure _ := (structureStatus, [])
  repairFold _ document := .ok (document, ∅)

/-- The reactor of a call with the given number of parts, and room for two pages. -/
def Reactor.start (π : Passes) (pendingParts : ℕ) : Reactor π where
  documentId := "document"
  origin := ⟨"document.pdf", "application/pdf", "magic", 0⟩
  slimCollectorDocuments := false
  maximumBufferedPages := 2
  pendingParts := pendingParts

theorem Reactor.fresh_start (π : Passes) (pendingParts : ℕ) :
  (Reactor.start π pendingParts).Fresh
  := by
  constructor <;> rfl

end GRParse
