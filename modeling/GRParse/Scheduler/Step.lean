import GRParse.Scheduler.Basic

/-!
# The steps of the page scheduler

One relation for each group of functions says what its atomic actions do: which state an
action leaves, and which actions it unfolds to.  `Exec` joins them.  Where the source
calls out (a page source, a recognizer, a callback) the relation allows every answer, an
exception included.

An action that needs a request's `schedule_mutex` is enabled only while `schedule_pages`
does not hold it.  Callbacks run unlocked, so each is two actions, the call and the
return, and other threads may run between them.  `on_finish` does not throw: two of the
threads that call it would end the process.
-/

namespace GRParse.Scheduler

open List

/-! ### What the functions decide -/

/-- The span of pages `coordinate` admits out of a document of `pages` pages. -/
def admittedSpan (pageRange : Option (ℤ × ℤ)) (pages : ℤ) : Except Failure (ℤ × ℤ) :=
  if pages ≤ 0 then .error (.invalidDocument "Document does not contain a page")
  else match pageRange with
    | none => .ok (1, pages)
    | some (firstPage, lastPage) =>
      if firstPage < 1 ∨ lastPage < firstPage then
        .error (.invalidDocument "page_range must be a 1-indexed inclusive span")
      else if pages < firstPage then
        .error (.invalidDocument "page_range start is past the end of the document")
      else .ok (firstPage, min lastPage pages)

/-- An admitted span starts at page one or later, is not empty, and ends inside the
document. -/
theorem admittedSpan_bounds {pageRange : Option (ℤ × ℤ)} {pages first last : ℤ}
    (h : admittedSpan pageRange pages = .ok (first, last)) :
  1 ≤ first ∧ first ≤ last ∧ last ≤ pages
  := by
  unfold admittedSpan at h
  split_ifs at h with hpages
  cases pageRange with
  | none =>
    obtain ⟨rfl, rfl⟩ : 1 = first ∧ pages = last := by simpa using h
    omega
  | some span =>
    obtain ⟨firstPage, lastPage⟩ := span
    simp only at h
    split_ifs at h with hspan hstart
    obtain ⟨rfl, rfl⟩ : firstPage = first ∧ min lastPage pages = last := by simpa using h
    omega

namespace OcrTuning

/-- Whether the inspector named the pages to recognize. -/
def inspectorRouted (tuning : OcrTuning) : Bool :=
  tuning.mode = .selective && !tuning.ocrPages.isEmpty

/-- Whether the embedded text layer settles a page it was read from. -/
def embeddedSettles (tuning : OcrTuning) (pageNumber : ℤ) (skipOcr : Bool) : Bool :=
  if tuning.inspectorRouted then !tuning.ocrPages.contains pageNumber
  else tuning.mode = .off || skipOcr

/-- Whether a rasterized page is recognized, by what its embedded layer answered. -/
def runsOcr (tuning : OcrTuning) (pageNumber : ℤ) (digital : Option Bool) : Bool :=
  if tuning.inspectorRouted then tuning.ocrPages.contains pageNumber || digital.isNone
  else tuning.mode = .force || (tuning.mode = .selective && digital != some true)

/-- Whether the document's pages carry previews. -/
def capturesPageImages (tuning : OcrTuning) (options : Options) : Bool :=
  tuning.capturePageImages.getD options.capturePageImages

end OcrTuning

/-- Whether a page goes to assembly with its embedded layer, without being rasterized. -/
def State.settlesDigitally (s : State) (page : PageJob) (digital : Option Bool) : Bool :=
  match digital with
  | none => false
  | some skipOcr =>
    (s.requests page.request).tuning.embeddedSettles page.pageNumber skipOcr &&
      !s.regionDetector &&
      !(s.requests page.request).tuning.capturesPageImages s.options

/-- The pages `first` to `last`. -/
def pageSpan (first last : ℤ) : List ℤ :=
  (List.range (last + 1 - first).toNat).map fun i : ℕ => first + (i : ℤ)

/-- A span begins with its first page. -/
theorem pageSpan_cons {first last : ℤ} (h : first ≤ last) :
  pageSpan first last = first :: pageSpan (first + 1) last
  := by
  have hlength : (last + 1 - first).toNat = (last + 1 - (first + 1)).toNat + 1 := by omega
  rw [pageSpan, hlength, range_succ_eq_map, pageSpan]
  simp only [map_cons, map_map, Nat.cast_zero, add_zero]
  congr 1
  apply map_congr_left
  intro i _
  simp only [Function.comp_apply, Nat.succ_eq_add_one, Nat.cast_add, Nat.cast_one]
  omega

/-- A span past its end is empty. -/
theorem pageSpan_nil {first last : ℤ} (h : last < first) :
  pageSpan first last = []
  := by
  have hlength : (last + 1 - first).toNat = 0 := by omega
  simp [pageSpan, hlength]

/-- A page is in a span when it lies between the bounds. -/
theorem mem_pageSpan {first last page : ℤ} :
  page ∈ pageSpan first last ↔ first ≤ page ∧ page ≤ last
  := by
  simp only [pageSpan, mem_map, mem_range]
  constructor
  · rintro ⟨i, hi, rfl⟩
    omega
  · rintro ⟨hfirst, hlast⟩
    use (page - first).toNat
    omega

/-- A span names no page twice. -/
theorem nodup_pageSpan (first last : ℤ) :
  (pageSpan first last).Nodup
  := by
  apply List.Nodup.map _ nodup_range
  intro i j hij
  simp only at hij
  omega

/-- A page span has as many pages as its bounds say. -/
theorem length_pageSpan {first last : ℤ} (h : first ≤ last + 1) :
  ((pageSpan first last).length : ℤ) = last - first + 1
  := by
  simp only [pageSpan, length_map, length_range]
  omega

/-- `fetch_sub(1)` on a `size_t`. -/
def fetchSubSize (n : ℕ) : ℕ :=
  (n + (2 ^ 64 - 1)) % 2 ^ 64

/-! ### The callers and `submit` -/

/-- A request as `submit` makes it. -/
def Request.submitted (tuning : OcrTuning) (pageWindow : ℕ) : Request where
  tuning := tuning
  pageWindow := pageWindow

/-- The state after `submit` has entered a request in the registry. -/
def State.register (s : State) (tuning : OcrTuning) : State :=
  { s with
    requests :=
      Function.update s.requests s.nextSerial (.submitted tuning s.options.pageWindow)
    nextSerial := s.nextSerial + 1
    activeRequests := s.nextSerial :: s.activeRequests
    activeDocuments := s.activeDocuments + 1 }

/-- The state after `submit` has taken a request out of the registry again. -/
def State.reject (s : State) (d : RequestId) : State :=
  { s.setMetrics fun m => { m with documentsRejected := m.documentsRejected + 1 } with
    activeRequests := s.activeRequests.filter (· ≠ d)
    activeDocuments := fetchSubSize s.activeDocuments }

/-- A caller may submit a document, and use the ticket of one admitted. -/
inductive CallerExec (s : State) : Op → State → List Op → Prop where
  | submitSaturated (full : s.options.maxActiveDocuments ≤ s.activeDocuments) :
      CallerExec s .caller
        (s.setMetrics fun m => { m with documentsRejected := m.documentsRejected + 1 })
        [.caller]
  | submit (tuning : OcrTuning) (room : s.activeDocuments < s.options.maxActiveDocuments) :
      CallerExec s .caller (s.register tuning) [.submitPush s.nextSerial, .caller]
  | ticketCancel (d : RequestId) (ticket : (s.requests d).admitted = true) :
      CallerExec s .caller s [.cancel d .wake, .caller]
  | ticketRelease (d : RequestId) (slots : ℕ) (ticket : (s.requests d).admitted = true) :
      CallerExec s .caller s [.releaseSlots d slots, .caller]
  | submitPush {d : RequestId} {documents : BoundedQueue RequestId RequestId}
      (pushed : s.documents.tryPush d none = (documents, true)) :
      CallerExec s (.submitPush d)
        ({ s.setMetrics fun m => { m with documentsSubmitted := m.documentsSubmitted + 1 } with
            documents := documents }.setRequest d fun r => { r with admitted := true })
        []
  | submitRefused {d : RequestId} {documents : BoundedQueue RequestId RequestId}
      (refused : s.documents.tryPush d none = (documents, false)) :
      CallerExec s (.submitPush d) ({ s with documents := documents }.reject d) []

/-! ### Cancelling, failing, crediting, waking and finishing a request -/

/-- The actions of `State::cancel`, `State::fail`, `State::release_slots`,
`queue_reschedule`, `finish_request` and `complete_page`. -/
inductive RequestExec (s : State) : Op → State → List Op → Prop where
  | cancel {d : RequestId} {next : AfterCancel} :
      RequestExec s (.cancel d next) (s.setRequest d fun r => { r with cancelled := true })
        (.readSource d :: next.code d)
  | readSource {d : RequestId} (unlocked : (s.requests d).scheduleLocked = false) :
      RequestExec s (.readSource d) s []
  | fail {d : RequestId} {value : Failure} {next : AfterCancel} :
      RequestExec s (.fail d value next)
        (s.setRequest d fun r => { r with failure := r.failure.or (some value) })
        [.cancel d next]
  | releaseNothing {d : RequestId} {slots : ℕ}
      (nothing : slots = 0 ∨ (s.requests d).finishCalled = true) :
      RequestExec s (.releaseSlots d slots) s []
  | releaseSlots {d : RequestId} {slots : ℕ} (some_slots : slots ≠ 0)
      (unfinished : (s.requests d).finishCalled = false) :
      RequestExec s (.releaseSlots d slots) s [.addSlots d slots]
  | addSlots {d : RequestId} {slots : ℕ} (unlocked : (s.requests d).scheduleLocked = false) :
      RequestExec s (.addSlots d slots)
        (s.setRequest d fun r =>
          { r with availableSlots := min r.pageWindow (r.availableSlots + slots) })
        [.queueReschedule d]
  | rescheduleFinished {d : RequestId} (finished : (s.requests d).finishCalled = true) :
      RequestExec s (.queueReschedule d) s []
  | queueReschedule {d : RequestId} (unfinished : (s.requests d).finishCalled = false) :
      RequestExec s (.queueReschedule d) s [.setPending d]
  | alreadyPending {d : RequestId} (pending : (s.requests d).reschedulePending = true) :
      RequestExec s (.setPending d) s []
  | setPending {d : RequestId} (idle : (s.requests d).reschedulePending = false) :
      RequestExec s (.setPending d)
        (s.setRequest d fun r => { r with reschedulePending := true }) [.pushPending d]
  | pushStopping {d : RequestId} (stopping : s.stopping = true) :
      RequestExec s (.pushPending d) s []
  | pushPending {d : RequestId} (running : s.stopping = false) :
      RequestExec s (.pushPending d)
        { s with pendingReschedules := s.pendingReschedules ++ [d] } []
  | alreadyFinished {d : RequestId} (finished : (s.requests d).finishCalled = true) :
      RequestExec s (.finishRequest d) s []
  | finishRequest {d : RequestId} (unfinished : (s.requests d).finishCalled = false) :
      RequestExec s (.finishRequest d)
        (s.setRequest d fun r => { r with finishCalled := true }) [.retireRequest d]
  | retireRequest {d : RequestId} :
      RequestExec s (.retireRequest d)
        { s with
          activeRequests := s.activeRequests.filter (· ≠ d)
          activeDocuments := fetchSubSize s.activeDocuments }
        [.callOnFinish d]
  | callOnFinish {d : RequestId} :
      RequestExec s (.callOnFinish d)
        (s.setRequest d fun r => { r with callbacks := r.callbacks ++ [.onFinish r.failure] })
        []
  | completePage {page : PageJob} {outcome : PageOutcome} :
      RequestExec s (.completePage page outcome)
        ((s.setMetrics fun m =>
            if outcome = .cancelled then { m with pagesCancelled := m.pagesCancelled + 1 }
            else m).setRequest page.request fun r =>
          { r with outcomes := r.outcomes ++ [(page.pageNumber, outcome)] })
        ((if (s.requests page.request).cancelled then [.queueReschedule page.request] else [])
          ++ [.countPage page])
  | countPage {page : PageJob} :
      RequestExec s (.countPage page)
        (s.setRequest page.request fun r =>
          { r with
            remainingPages := r.remainingPages - 1
            counted := r.counted ++ [page.pageNumber] })
        (if (s.requests page.request).remainingPages = 1 then [.finishRequest page.request]
          else [])

/-! ### `coordinate` -/

/-- The actions of an opener. -/
inductive OpenExec (s : State) : Op → State → List Op → Prop where
  | popDocument {d : RequestId} {waiters : List RequestId}
      {documents : BoundedQueue RequestId RequestId}
      (popped : s.documents.pop = some (d, waiters, documents)) :
      OpenExec s .popDocument { s with documents := documents }
        (waiters.map .queueReschedule ++ [.openDocument d, .popDocument])
  | documentsDone (closed : s.documents.closed = true) (empty : s.documents.queue = []) :
      OpenExec s .popDocument s []
  | openCancelled {d : RequestId} (cancelled : (s.requests d).cancelled = true) :
      OpenExec s (.openDocument d) s [.finishRequest d]
  | openDocument {d : RequestId} (live : (s.requests d).cancelled = false) :
      OpenExec s (.openDocument d) s [.openSource d]
  | openRaises {d : RequestId} (raised : Failure) :
      OpenExec s (.openSource d) s [.fail d raised .settleOpen]
  | openSource {d : RequestId} (unlocked : (s.requests d).scheduleLocked = false) :
      OpenExec s (.openSource d) (s.setRequest d fun r => { r with source := true })
        [.countPages d]
  | countRaises {d : RequestId} (raised : Failure) :
      OpenExec s (.countPages d) s [.fail d raised .settleOpen]
  | spanRefused {d : RequestId} {pages : ℤ} {refusal : Failure}
      (refused : admittedSpan (s.requests d).tuning.pageRange pages = .error refusal) :
      OpenExec s (.countPages d) s [.fail d refusal .settleOpen]
  | countPages {d : RequestId} {pages first last : ℤ}
      (admitted : admittedSpan (s.requests d).tuning.pageRange pages = .ok (first, last)) :
      OpenExec s (.countPages d) s [.publishPages d first last]
  -- `remaining_pages.store` comes before the lock: until the page count is published no
  -- other thread reads the counter, so the two are one action.
  | publishPages {d : RequestId} {first last : ℤ}
      (unlocked : (s.requests d).scheduleLocked = false) :
      OpenExec s (.publishPages d first last)
        (s.setRequest d fun r =>
          { r with
            remainingPages := last - first + 1
            totalPages := last
            firstPage := first
            nextPageToSchedule := first
            availableSlots := r.pageWindow })
        [.callOnDocument d (last - first + 1)]
  | callOnDocument {d : RequestId} {pageCount : ℤ} :
      OpenExec s (.callOnDocument d pageCount)
        (s.setRequest d fun r => { r with callbacks := r.callbacks ++ [.onDocument pageCount] })
        [.returnOnDocument d]
  | onDocumentRaises {d : RequestId} (raised : Failure) :
      OpenExec s (.returnOnDocument d) s [.fail d raised .settleOpen]
  | onDocumentReturns {d : RequestId} :
      OpenExec s (.returnOnDocument d) s [.queueReschedule d]
  | settleOpen {d : RequestId} :
      OpenExec s (.settleOpen d) s
        (if (s.requests d).remainingPages = 0 then [.finishRequest d]
          else [.queueReschedule d])

/-! ### `reschedule_requests` and `schedule_pages` -/

/-- The actions of the rescheduler. -/
inductive ScheduleExec (s : State) : Op → State → List Op → Prop where
  | popReschedule {d : RequestId} {rest : List RequestId} (running : s.stopping = false)
      (front : s.pendingReschedules = d :: rest) :
      ScheduleExec s .popReschedule { s with pendingReschedules := rest }
        [.clearPending d, .popReschedule]
  | reschedulerDone (stopping : s.stopping = true) :
      ScheduleExec s .popReschedule s []
  | clearPending {d : RequestId} :
      ScheduleExec s (.clearPending d)
        (s.setRequest d fun r => { r with reschedulePending := false }) [.schedulePages d]
  | notPublished {d : RequestId} (unlocked : (s.requests d).scheduleLocked = false)
      (unpublished : (s.requests d).source = false ∨ (s.requests d).totalPages ≤ 0) :
      ScheduleExec s (.schedulePages d) s []
  | cancelRest {d : RequestId} (unlocked : (s.requests d).scheduleLocked = false)
      (source : (s.requests d).source = true) (published : 0 < (s.requests d).totalPages)
      (cancelled : (s.requests d).cancelled = true)
      (left : (s.requests d).nextPageToSchedule ≤ (s.requests d).totalPages) :
      ScheduleExec s (.schedulePages d)
        (s.setRequest d fun r =>
          { r with
            nextPageToSchedule := r.totalPages + 1
            outcomes := r.outcomes ++
              (pageSpan r.nextPageToSchedule r.totalPages).map (·, .cancelled) })
        [.countCancelled d (s.requests d).nextPageToSchedule (s.requests d).totalPages]
  | nothingLeft {d : RequestId} (unlocked : (s.requests d).scheduleLocked = false)
      (source : (s.requests d).source = true) (published : 0 < (s.requests d).totalPages)
      (cancelled : (s.requests d).cancelled = true)
      (none_left : (s.requests d).totalPages < (s.requests d).nextPageToSchedule) :
      ScheduleExec s (.schedulePages d) s []
  | schedulePages {d : RequestId} (unlocked : (s.requests d).scheduleLocked = false)
      (source : (s.requests d).source = true) (published : 0 < (s.requests d).totalPages)
      (live : (s.requests d).cancelled = false) :
      ScheduleExec s (.schedulePages d)
        (s.setRequest d fun r => { r with scheduleLocked := true }) [.scheduleLoop d]
  | schedulePage {d : RequestId} {render : BoundedQueue PageJob RequestId}
      (slots : 0 < (s.requests d).availableSlots)
      (left : (s.requests d).nextPageToSchedule ≤ (s.requests d).totalPages)
      (pushed : s.render.tryPush ⟨d, (s.requests d).nextPageToSchedule⟩ (some d)
        = (render, true)) :
      ScheduleExec s (.scheduleLoop d)
        ({ s with render := render }.setRequest d fun r =>
          { r with
            nextPageToSchedule := r.nextPageToSchedule + 1
            availableSlots := r.availableSlots - 1 })
        [.scheduleLoop d]
  | renderRefused {d : RequestId} {render : BoundedQueue PageJob RequestId}
      (slots : 0 < (s.requests d).availableSlots)
      (left : (s.requests d).nextPageToSchedule ≤ (s.requests d).totalPages)
      (refused : s.render.tryPush ⟨d, (s.requests d).nextPageToSchedule⟩ (some d)
        = (render, false)) :
      ScheduleExec s (.scheduleLoop d)
        ({ s with render := render }.setRequest d fun r => { r with scheduleLocked := false })
        []
  | scheduled {d : RequestId}
      (done : (s.requests d).availableSlots = 0 ∨
        (s.requests d).totalPages < (s.requests d).nextPageToSchedule) :
      ScheduleExec s (.scheduleLoop d)
        (s.setRequest d fun r => { r with scheduleLocked := false }) []
  | countCancelled {d : RequestId} {first last : ℤ} :
      ScheduleExec s (.countCancelled d first last)
        ((s.setMetrics fun m =>
            { m with pagesCancelled := m.pagesCancelled + (last - first + 1).toNat }).setRequest
          d fun r =>
          { r with
            remainingPages := r.remainingPages - (last - first + 1)
            counted := r.counted ++ pageSpan first last })
        (if (s.requests d).remainingPages = last - first + 1 then [.finishRequest d] else [])

/-! ### The render, inference and assembly stages -/

/-- The actions of the stage workers. -/
inductive StageExec (s : State) : Op → State → List Op → Prop where
  | popRender {page : PageJob} {waiters : List RequestId}
      {render : BoundedQueue PageJob RequestId}
      (popped : s.render.pop = some (page, waiters, render)) :
      StageExec s .popRender { s with render := render }
        (waiters.map .queueReschedule ++ [.renderPage page, .popRender])
  | renderDone (closed : s.render.closed = true) (empty : s.render.queue = []) :
      StageExec s .popRender s []
  | renderCancelled {page : PageJob}
      (cancelled : (s.requests page.request).cancelled = true) :
      StageExec s (.renderPage page) s [.completePage page .cancelled]
  | renderPage {page : PageJob} (live : (s.requests page.request).cancelled = false) :
      StageExec s (.renderPage page) s [.readPage page]
  | readRaises {page : PageJob} (raised : Failure) :
      StageExec s (.readPage page) s
        [.fail page.request raised (.complete page.pageNumber .failed)]
  -- forced recognition never reads the embedded layer
  | readDigitally {page : PageJob} {digital : Option Bool}
      (unread : (s.requests page.request).tuning.mode = .force → digital = none)
      (settled : s.settlesDigitally page digital = true) :
      StageExec s (.readPage page)
        (s.setMetrics fun m => { m with pagesReadDigitally := m.pagesReadDigitally + 1 })
        [.pushAssembly page]
  | rasterize {page : PageJob} {digital : Option Bool}
      (unread : (s.requests page.request).tuning.mode = .force → digital = none)
      (unsettled : s.settlesDigitally page digital = false) :
      StageExec s (.readPage page)
        (s.setMetrics fun m =>
          { m with
            pagesReadDigitally := m.pagesReadDigitally + digital.toList.length
            pagesRendered := m.pagesRendered + 1 })
        [.pageRendered page
          ((s.requests page.request).tuning.runsOcr page.pageNumber digital)]
  | renderedCancelled {page : PageJob} {runOcr : Bool}
      (cancelled : (s.requests page.request).cancelled = true) :
      StageExec s (.pageRendered page runOcr) s [.completePage page .cancelled]
  | pageRendered {page : PageJob} {runOcr : Bool}
      (live : (s.requests page.request).cancelled = false) :
      StageExec s (.pageRendered page runOcr) s [.pushInference page runOcr]
  | inferenceClosed {page : PageJob} {runOcr : Bool}
      {inference : BoundedQueue InferenceJob RequestId} (ready : s.inference.pushReady)
      (refused : s.inference.push ⟨page, runOcr⟩ = (inference, false)) :
      StageExec s (.pushInference page runOcr) { s with inference := inference }
        [.fail page.request (.runtimeError "Inference queue closed")
          (.complete page.pageNumber .failed)]
  | pushInference {page : PageJob} {runOcr : Bool}
      {inference : BoundedQueue InferenceJob RequestId} (ready : s.inference.pushReady)
      (pushed : s.inference.push ⟨page, runOcr⟩ = (inference, true)) :
      StageExec s (.pushInference page runOcr) { s with inference := inference } []
  | assemblyClosed {page : PageJob} {assembly : BoundedQueue PageJob RequestId}
      (ready : s.assembly.pushReady) (refused : s.assembly.push page = (assembly, false)) :
      StageExec s (.pushAssembly page) { s with assembly := assembly }
        [.fail page.request (.runtimeError "Assembly queue closed")
          (.complete page.pageNumber .failed)]
  | pushAssembly {page : PageJob} {assembly : BoundedQueue PageJob RequestId}
      (ready : s.assembly.pushReady) (pushed : s.assembly.push page = (assembly, true)) :
      StageExec s (.pushAssembly page) { s with assembly := assembly } []
  | popInference {job : InferenceJob} {waiters : List RequestId}
      {inference : BoundedQueue InferenceJob RequestId}
      (popped : s.inference.pop = some (job, waiters, inference)) :
      StageExec s .popInference { s with inference := inference }
        (waiters.map .queueReschedule ++ [.recognizePage job, .popInference])
  | inferenceDone (closed : s.inference.closed = true) (empty : s.inference.queue = []) :
      StageExec s .popInference s []
  | recognizeCancelled {job : InferenceJob}
      (cancelled : (s.requests job.page.request).cancelled = true) :
      StageExec s (.recognizePage job) s [.completePage job.page .cancelled]
  | recognizePage {job : InferenceJob}
      (live : (s.requests job.page.request).cancelled = false) :
      StageExec s (.recognizePage job) s [.runRecognition job]
  | recognitionRaises {job : InferenceJob} (raised : Failure) :
      StageExec s (.runRecognition job) s
        [.fail job.page.request raised (.complete job.page.pageNumber .failed)]
  | runRecognition {job : InferenceJob} :
      StageExec s (.runRecognition job)
        (s.setMetrics fun m =>
          if job.runOcr then { m with pagesRecognized := m.pagesRecognized + 1 } else m)
        [.pushAssembly job.page]
  | popAssembly {page : PageJob} {waiters : List RequestId}
      {assembly : BoundedQueue PageJob RequestId}
      (popped : s.assembly.pop = some (page, waiters, assembly)) :
      StageExec s .popAssembly { s with assembly := assembly }
        (waiters.map .queueReschedule ++ [.assemblePage page, .popAssembly])
  | assemblyDone (closed : s.assembly.closed = true) (empty : s.assembly.queue = []) :
      StageExec s .popAssembly s []
  | assembleCancelled {page : PageJob}
      (cancelled : (s.requests page.request).cancelled = true) :
      StageExec s (.assemblePage page) s [.completePage page .cancelled]
  | assemblePage {page : PageJob} (live : (s.requests page.request).cancelled = false) :
      StageExec s (.assemblePage page) s [.callOnPage page]
  | callOnPage {page : PageJob} :
      StageExec s (.callOnPage page)
        (s.setRequest page.request fun r =>
          { r with callbacks := r.callbacks ++ [.onPage page.pageNumber] })
        [.returnOnPage page]
  | onPageRaises {page : PageJob} (raised : Failure) :
      StageExec s (.returnOnPage page) s
        [.fail page.request raised (.complete page.pageNumber .failed)]
  -- the timing line of a page accepted and released may still throw
  | timingRaises {page : PageJob} (raised : Failure) :
      StageExec s (.returnOnPage page) s
        [.releaseSlots page.request 1,
          .fail page.request raised (.complete page.pageNumber .failed)]
  | onPageReturns {page : PageJob} (delivery : DeliveryResult) :
      StageExec s (.returnOnPage page) s
        (match delivery with
          | .accepted => [.completePage page .completed]
          | .acceptedAndRelease =>
            [.releaseSlots page.request 1, .completePage page .completed]
          | .cancelled => [.cancel page.request (.complete page.pageNumber .cancelled)])

/-! ### `stop` -/

/-- The actions of `stop`.  `exited` says that every worker has returned. -/
inductive StopExec (s : State) (exited : Prop) : Op → State → List Op → Prop where
  | stop :
      StopExec s exited .stop { s with documents := s.documents.close.2 }
        (s.documents.close.1.map .queueReschedule ++ [.stopReschedules])
  | stopReschedules :
      StopExec s exited .stopReschedules { s with stopping := true, pendingReschedules := [] }
        [.closeRender]
  | closeRender :
      StopExec s exited .closeRender { s with render := s.render.close.2 }
        (s.render.close.1.map .queueReschedule ++ [.closeInference])
  | closeInference :
      StopExec s exited .closeInference { s with inference := s.inference.close.2 }
        (s.inference.close.1.map .queueReschedule ++ [.closeAssembly])
  | closeAssembly :
      StopExec s exited .closeAssembly { s with assembly := s.assembly.close.2 }
        (s.assembly.close.1.map .queueReschedule ++ [.failOpening])
  | failOpening :
      StopExec s exited .failOpening s
        (s.activeRequests.map .failIfOpening ++ [.joinWorkers])
  | failIfOpening {d : RequestId} (unlocked : (s.requests d).scheduleLocked = false) :
      StopExec s exited (.failIfOpening d) s
        (if (s.requests d).totalPages = 0 then [.fail d shuttingDown .shutdown] else [])
  | joinWorkers (joined : exited) :
      StopExec s exited .joinWorkers { s with joined := true } [.abandonRequests]
  | abandonRequests :
      StopExec s exited .abandonRequests s
        (s.activeRequests.map fun d => .fail d shuttingDown .abandon)

/-! ### All of them -/

/-- What an atomic action does in a pool: the state it leaves and the actions it unfolds
to. -/
inductive Exec (c : Pool) : Op → State → List Op → Prop where
  | caller {op : Op} {s : State} {next : List Op} (h : CallerExec c.shared op s next) :
      Exec c op s next
  | request {op : Op} {s : State} {next : List Op} (h : RequestExec c.shared op s next) :
      Exec c op s next
  | opening {op : Op} {s : State} {next : List Op} (h : OpenExec c.shared op s next) :
      Exec c op s next
  | schedule {op : Op} {s : State} {next : List Op} (h : ScheduleExec c.shared op s next) :
      Exec c op s next
  | stage {op : Op} {s : State} {next : List Op} (h : StageExec c.shared op s next) :
      Exec c op s next
  | stop {op : Op} {s : State} {next : List Op} (h : StopExec c.shared c.exited op s next) :
      Exec c op s next

/-- One step of a scheduler. -/
abbrev Step : Pool → Op → Pool → Prop := ThreadPool.Step Exec

/-- The schedulers reachable from a fresh one. -/
def Reachable (c : Pool) : Prop :=
  ∃ options regionDetector callers,
    ThreadPool.Reaches Exec (Pool.start options regionDetector callers) c

end GRParse.Scheduler
