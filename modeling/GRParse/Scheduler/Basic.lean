import GRParse.Lib.ThreadPool
import GRParse.Scheduler.Queue
import Mathlib.Data.Int.Interval

/-!
# The state of the page scheduler

`State` is what the threads of a `PageScheduler` share: the requests, the four stage
queues, the list of pending reschedules and the registry of active requests.  `Op` lists
the atomic actions the threads are made of.  An action touches one atomic or runs one
critical section; the only lock that is held across several actions is a request's
`schedule_mutex` while `schedule_pages` fills the render queue.

Four fields of a request and one of the state record history, and nothing reads them:
`firstPage`, `outcomes`, `counted` and `callbacks`, and `State.joined`.
-/

namespace GRParse.Scheduler

/-- A submitted document, by its serial number. -/
abbrev RequestId := ℕ

/-- What an `exception_ptr` of the scheduler holds. -/
inductive Failure where
  | invalidDocument (what : String)
  | runtimeError (what : String)
  | schedulerShuttingDown (what : String)
  | raised (what : String)
  deriving DecidableEq, Repr

/-- `SchedulerShuttingDown`, as `stop` raises it. -/
def shuttingDown : Failure :=
  .schedulerShuttingDown "Scheduler is shutting down"

/-- Terminal disposition of a page job. -/
inductive PageOutcome where
  | completed
  | cancelled
  | failed
  deriving DecidableEq, Repr

/-- What `on_page` answers. -/
inductive DeliveryResult where
  | accepted
  | acceptedAndRelease
  | cancelled
  deriving DecidableEq, Repr

/-- A call the scheduler makes into the callbacks of a request. -/
inductive Callback where
  | onDocument (totalPages : ℤ)
  | onPage (pageNumber : ℤ)
  | onFinish (failure : Option Failure)
  deriving DecidableEq, Repr

/-- `OcrTuning::Mode`. -/
inductive Mode where
  | selective
  | force
  | off
  deriving DecidableEq, Repr

/-- The tuning of one document, as far as it decides which pages run and what a render
worker does with one. -/
structure OcrTuning where
  mode : Mode := .selective
  ocrPages : List ℤ := []
  pageRange : Option (ℤ × ℤ) := none
  capturePageImages : Option Bool := none
  deriving DecidableEq, Repr

/-- The options of a scheduler.  The constructors of the queues and of the scheduler
throw on a zero, so every scheduler has positive ones. -/
structure Options where
  documentQueueCapacity : ℕ
  renderQueueCapacity : ℕ
  inferenceQueueCapacity : ℕ
  assemblyQueueCapacity : ℕ
  openWorkers : ℕ
  renderWorkers : ℕ
  inferenceWorkers : ℕ
  assemblyWorkers : ℕ
  pageWindow : ℕ
  maxActiveDocuments : ℕ
  capturePageImages : Bool
  positive : 0 < documentQueueCapacity ∧ 0 < renderQueueCapacity ∧
    0 < inferenceQueueCapacity ∧ 0 < assemblyQueueCapacity ∧ 0 < openWorkers ∧
    0 < renderWorkers ∧ 0 < inferenceWorkers ∧ 0 < assemblyWorkers ∧ 0 < pageWindow ∧
    0 < maxActiveDocuments

/-- `Ticket::State`. -/
structure Request where
  tuning : OcrTuning := {}
  cancelled : Bool := false
  remainingPages : ℤ := 0
  finishCalled : Bool := false
  reschedulePending : Bool := false
  failure : Option Failure := none
  scheduleLocked : Bool := false
  source : Bool := false
  totalPages : ℤ := 0
  nextPageToSchedule : ℤ := 1
  availableSlots : ℕ := 0
  pageWindow : ℕ := 0
  /-- Whether `submit` handed out a ticket. -/
  admitted : Bool := false
  /-- The first page of the span `coordinate` admitted. -/
  firstPage : ℤ := 1
  /-- The dispositions pages reached, in that order. -/
  outcomes : List (ℤ × PageOutcome) := []
  /-- The pages `remaining_pages.fetch_sub` has counted, in that order. -/
  counted : List ℤ := []
  /-- The callbacks made, in that order. -/
  callbacks : List Callback := []

/-- `PageJob`. -/
structure PageJob where
  request : RequestId
  pageNumber : ℤ
  deriving DecidableEq, Repr

/-- `InferenceJob`: the page, and whether it is recognized. -/
structure InferenceJob where
  page : PageJob
  runOcr : Bool
  deriving DecidableEq, Repr

/-- The counters `metrics` reports that these functions keep. -/
structure Metrics where
  documentsSubmitted : ℕ := 0
  documentsRejected : ℕ := 0
  pagesRendered : ℕ := 0
  pagesReadDigitally : ℕ := 0
  pagesRecognized : ℕ := 0
  pagesCancelled : ℕ := 0

/-- What the threads of a scheduler share. -/
structure State where
  options : Options
  /-- Whether a region detector is installed. -/
  regionDetector : Bool
  requests : RequestId → Request
  nextSerial : ℕ
  activeRequests : List RequestId
  activeDocuments : ℕ
  documents : BoundedQueue RequestId RequestId
  render : BoundedQueue PageJob RequestId
  inference : BoundedQueue InferenceJob RequestId
  assembly : BoundedQueue PageJob RequestId
  pendingReschedules : List RequestId
  stopping : Bool
  metrics : Metrics
  /-- Whether `stop` has joined the workers. -/
  joined : Bool

/-- The state with one request changed. -/
@[simps nextSerial activeRequests documents render inference assembly pendingReschedules stopping
  joined]
def State.setRequest (s : State) (d : RequestId) (f : Request → Request) : State :=
  { s with requests := Function.update s.requests d (f (s.requests d)) }

/-- The state with the counters changed. -/
@[simps requests nextSerial activeRequests documents render inference assembly pendingReschedules
  stopping joined]
def State.setMetrics (s : State) (f : Metrics → Metrics) : State :=
  { s with metrics := f s.metrics }

@[simp]
theorem State.setRequest_requests (s : State) (d e : RequestId) (f : Request → Request) :
  (s.setRequest d f).requests e = if e = d then f (s.requests d) else s.requests e
  := by
  simp [State.setRequest, Function.update_apply]

/-- What the function that called `State::cancel` does next. -/
inductive AfterCancel where
  /-- `Ticket::cancel` wakes the scheduler. -/
  | wake
  /-- A worker completes the page that failed or was refused. -/
  | complete (pageNumber : ℤ) (outcome : PageOutcome)
  /-- `coordinate` settles the document that failed to open. -/
  | settleOpen
  /-- `stop` goes on to the next document not yet open. -/
  | shutdown
  /-- `stop` finishes the abandoned document. -/
  | abandon

/-- The atomic actions, grouped by the function they belong to. -/
inductive Op where
  -- the callers' threads, and `submit`
  | caller
  | submitPush (d : RequestId)
  -- `State::cancel`, `State::fail`, `State::release_slots`
  | cancel (d : RequestId) (next : AfterCancel)
  | readSource (d : RequestId)
  | fail (d : RequestId) (value : Failure) (next : AfterCancel)
  | releaseSlots (d : RequestId) (slots : ℕ)
  | addSlots (d : RequestId) (slots : ℕ)
  -- `queue_reschedule`
  | queueReschedule (d : RequestId)
  | setPending (d : RequestId)
  | pushPending (d : RequestId)
  -- `finish_request`
  | finishRequest (d : RequestId)
  | retireRequest (d : RequestId)
  | callOnFinish (d : RequestId)
  -- `complete_page`
  | completePage (page : PageJob) (outcome : PageOutcome)
  | countPage (page : PageJob)
  -- `coordinate`
  | popDocument
  | openDocument (d : RequestId)
  | openSource (d : RequestId)
  | countPages (d : RequestId)
  | publishPages (d : RequestId) (first last : ℤ)
  | callOnDocument (d : RequestId) (pageCount : ℤ)
  | returnOnDocument (d : RequestId)
  | settleOpen (d : RequestId)
  -- `reschedule_requests`, `schedule_pages`
  | popReschedule
  | clearPending (d : RequestId)
  | schedulePages (d : RequestId)
  | scheduleLoop (d : RequestId)
  | countCancelled (d : RequestId) (first last : ℤ)
  -- `render_pages`, `enqueue_assembly`
  | popRender
  | renderPage (page : PageJob)
  | readPage (page : PageJob)
  | pageRendered (page : PageJob) (runOcr : Bool)
  | pushInference (page : PageJob) (runOcr : Bool)
  | pushAssembly (page : PageJob)
  -- `recognize_pages`
  | popInference
  | recognizePage (job : InferenceJob)
  | runRecognition (job : InferenceJob)
  -- `assemble_pages`
  | popAssembly
  | assemblePage (page : PageJob)
  | callOnPage (page : PageJob)
  | returnOnPage (page : PageJob)
  -- `stop`
  | stop
  | stopReschedules
  | closeRender
  | closeInference
  | closeAssembly
  | failOpening
  | failIfOpening (d : RequestId)
  | joinWorkers
  | abandonRequests

/-- What follows `State::cancel` in its caller. -/
def AfterCancel.code (d : RequestId) : AfterCancel → List Op
  | .wake => [.queueReschedule d]
  | .complete pageNumber outcome => [.completePage ⟨d, pageNumber⟩ outcome]
  | .settleOpen => [.settleOpen d]
  | .shutdown => []
  | .abandon => [.finishRequest d]

/-- The roles of the threads. -/
inductive Role where
  | opener
  | rescheduler
  | renderWorker
  | inferenceWorker
  | assemblyWorker
  | caller
  | destructor
  deriving DecidableEq, Repr

/-- The threads the constructor starts and `stop` joins. -/
def Role.isWorker : Role → Bool
  | .caller | .destructor => false
  | _ => true

/-- A scheduler at work: the shared state and the threads. -/
abbrev Pool := ThreadPool.Config State Role Op

/-- Whether every thread the constructor started has returned. -/
def Pool.exited (c : Pool) : Prop :=
  ∀ thread ∈ c.threads, thread.role.isWorker = true → thread.code = []

/-- The state the constructor leaves. -/
def State.start (options : Options) (regionDetector : Bool) : State where
  options := options
  regionDetector := regionDetector
  requests _ := {}
  nextSerial := 0
  activeRequests := []
  activeDocuments := 0
  documents := { capacity := options.documentQueueCapacity }
  render := { capacity := options.renderQueueCapacity }
  inference := { capacity := options.inferenceQueueCapacity }
  assembly := { capacity := options.assemblyQueueCapacity }
  pendingReschedules := []
  stopping := false
  metrics := {}
  joined := false

/-- A fresh scheduler: its workers, any number of caller threads, and the thread that
will run the destructor. -/
def Pool.start (options : Options) (regionDetector : Bool) (callers : ℕ) : Pool where
  shared := .start options regionDetector
  threads :=
    List.replicate options.openWorkers ⟨.opener, [.popDocument]⟩ ++
    ⟨.rescheduler, [.popReschedule]⟩ ::
    List.replicate options.renderWorkers ⟨.renderWorker, [.popRender]⟩ ++
    List.replicate options.inferenceWorkers ⟨.inferenceWorker, [.popInference]⟩ ++
    List.replicate options.assemblyWorkers ⟨.assemblyWorker, [.popAssembly]⟩ ++
    List.replicate callers ⟨.caller, [.caller]⟩ ++
    [⟨.destructor, [.stop]⟩]

end GRParse.Scheduler
