import GRParse.Scheduler.Step

/-!
# The ledger of a document

What a scheduler still has to do for one document is a multiset of tokens, whichever
threads, queues and lists hold them: a page under way is one token, a call of
`queue_reschedule` that somebody owes is another.  An entry of the ledger (`Act`) trades a
few tokens for others and changes the document's request; the other tokens are not
looked at.

The ledger is what the accounting of pages, the wakeups and the order of the callbacks
are proved on.  It knows nothing of threads.
-/

namespace GRParse.Scheduler

/-- Something a scheduler has still to do for a document. -/
inductive Token where
  /-- `submit` has still to queue the document. -/
  | submitting
  /-- The document waits for an opener, or one is opening it. -/
  | opening
  /-- The page count is published, and `on_document` is about to be called. -/
  | announcing
  /-- An opener returns from `on_document`, or settles a document it could not open. -/
  | returning
  /-- A page is in a queue or with a worker. -/
  | held (pageNumber : ℤ)
  /-- `complete_page` is about to be called for a page. -/
  | leaving (pageNumber : ℤ)
  /-- The pages reached their outcome and are about to be subtracted. -/
  | settled (pages : List ℤ)
  /-- `finish_request` is about to be called, or will be by `stop`. -/
  | finishing
  /-- `on_finish` is about to be called. -/
  | closing
  /-- `queue_reschedule` is about to be called, or registered to be called. -/
  | waking
  /-- `queue_reschedule` is about to set the flag. -/
  | setting
  /-- `queue_reschedule` has set the flag and is about to push the document. -/
  | pushing
  /-- The document is one of the pending reschedules. -/
  | pending
  /-- The rescheduler has popped the document and is about to clear the flag. -/
  | clearing
  /-- The rescheduler is about to call `schedule_pages`. -/
  | scheduling
  /-- `schedule_pages` is filling the render queue. -/
  | filling
  deriving DecidableEq

/-- An entry: the tokens it takes, the request it leaves and the tokens it puts, on a
scheduler with the given flags. -/
inductive Act (stopping joined : Bool) (r : Request) :
    Multiset Token → Request → Multiset Token → Prop where
  -- submitting and opening
  | admitted (workers : joined = false) :
      Act stopping joined r {.submitting} { r with admitted := true } {.opening}
  | refuse : Act stopping joined r {.submitting} r 0
  | openSource : Act stopping joined r {.opening} { r with source := true } {.opening}
  | openCancelled : Act stopping joined r {.opening} r {.finishing}
  | openFails : Act stopping joined r {.opening} r {.returning}
  | publish {first last : ℤ} (one_le : 1 ≤ first) (span : first ≤ last) :
      Act stopping joined r {.opening}
        { r with
          remainingPages := last - first + 1
          totalPages := last
          firstPage := first
          nextPageToSchedule := first
          availableSlots := r.pageWindow }
        {.announcing}
  | announce (pageCount : ℤ) :
      Act stopping joined r {.announcing}
        { r with callbacks := r.callbacks ++ [.onDocument pageCount] } {.returning}
  | opened : Act stopping joined r {.returning} r {.waking}
  | settleOpen (none_left : r.remainingPages = 0) :
      Act stopping joined r {.returning} r {.finishing}
  -- cancelling, failing and crediting
  | cancelWake : Act stopping joined r 0 { r with cancelled := true } {.waking}
  | cancelPage {pageNumber : ℤ} :
      Act stopping joined r {.held pageNumber} { r with cancelled := true }
        {.leaving pageNumber}
  | cancelOpen : Act stopping joined r {.returning} { r with cancelled := true } {.returning}
  | cancelStopping (stop : stopping = true) :
      Act stopping joined r 0 { r with cancelled := true } 0
  | fail (failure : Option Failure) :
      Act stopping joined r 0 { r with failure := failure } 0
  | credit (slots : ℕ) : Act stopping joined r 0 { r with availableSlots := slots } {.waking}
  -- waking the rescheduler
  | wakeFinished (finished : r.finishCalled = true) : Act stopping joined r {.waking} r 0
  | wake : Act stopping joined r {.waking} r {.setting}
  | alreadyPending (pending : r.reschedulePending = true) :
      Act stopping joined r {.setting} r 0
  | setPending :
      Act stopping joined r {.setting} { r with reschedulePending := true } {.pushing}
  | dropPending (stop : stopping = true) : Act stopping joined r {.pushing} r 0
  | pushPending (running : stopping = false) : Act stopping joined r {.pushing} r {.pending}
  | popPending : Act stopping joined r {.pending} r {.clearing}
  | clearPending :
      Act stopping joined r {.clearing} { r with reschedulePending := false } {.scheduling}
  -- scheduling
  | notPublished (unpublished : r.source = false ∨ r.totalPages ≤ 0) :
      Act stopping joined r {.scheduling} r 0
  | nothingLeft (none_left : r.totalPages < r.nextPageToSchedule) :
      Act stopping joined r {.scheduling} r 0
  | cancelRest (published : 0 < r.totalPages) (left : r.nextPageToSchedule ≤ r.totalPages) :
      Act stopping joined r {.scheduling}
        { r with
          nextPageToSchedule := r.totalPages + 1
          outcomes := r.outcomes ++
            (pageSpan r.nextPageToSchedule r.totalPages).map (·, .cancelled) }
        {.settled (pageSpan r.nextPageToSchedule r.totalPages)}
  | schedulePages (published : 0 < r.totalPages) (live : r.cancelled = false) :
      Act stopping joined r {.scheduling} { r with scheduleLocked := true } {.filling}
  | schedulePage (left : r.nextPageToSchedule ≤ r.totalPages) :
      Act stopping joined r {.filling}
        { r with
          nextPageToSchedule := r.nextPageToSchedule + 1
          availableSlots := r.availableSlots - 1 }
        {.filling, .held r.nextPageToSchedule}
  | renderFull : Act stopping joined r {.filling} { r with scheduleLocked := false } {.waking}
  | renderClosed (stop : stopping = true) :
      Act stopping joined r {.filling} { r with scheduleLocked := false } 0
  | scheduled (done : r.availableSlots = 0 ∨ r.totalPages < r.nextPageToSchedule) :
      Act stopping joined r {.filling} { r with scheduleLocked := false } 0
  -- the pages
  | deliver {pageNumber : ℤ} :
      Act stopping joined r {.held pageNumber}
        { r with callbacks := r.callbacks ++ [.onPage pageNumber] } {.held pageNumber}
  | leave {pageNumber : ℤ} :
      Act stopping joined r {.held pageNumber} r {.leaving pageNumber}
  | complete {pageNumber : ℤ} (outcome : PageOutcome) :
      Act stopping joined r {.leaving pageNumber}
        { r with outcomes := r.outcomes ++ [(pageNumber, outcome)] }
        ((if r.cancelled then {.waking} else 0) + {.settled [pageNumber]})
  | count {pages : List ℤ} :
      Act stopping joined r {.settled pages}
        { r with
          remainingPages := r.remainingPages - pages.length
          counted := r.counted ++ pages }
        (if r.remainingPages = pages.length then {.finishing} else 0)
  -- finishing
  | finishAgain (finished : r.finishCalled = true) : Act stopping joined r {.finishing} r 0
  | finish (unfinished : r.finishCalled = false) :
      Act stopping joined r {.finishing} { r with finishCalled := true } {.closing}
  | onFinish :
      Act stopping joined r {.closing}
        { r with callbacks := r.callbacks ++ [.onFinish r.failure] } 0

/-- Whether callers and the destructor may hold a token. -/
def Token.isExternal : Token → Bool
  | .submitting | .finishing | .closing | .waking | .setting | .pushing => true
  | _ => false

/-- What a scheduler knows and owes of one document. -/
structure Ledger where
  request : Request
  tokens : Multiset Token
  submitted : Bool
  stopping : Bool
  joined : Bool

namespace Ledger

/-- A change of the ledger, labelled by the tokens it takes. -/
inductive Move (l : Ledger) : Multiset Token → Ledger → Prop where
  | idle : Move l 0 l
  | act {taken put rest : Multiset Token} {r : Request} (holds : l.tokens = taken + rest)
      (act : Act l.stopping l.joined l.request taken r put) :
      Move l taken { l with request := r, tokens := put + rest }
  | submit (tuning : OcrTuning) (pageWindow : ℕ) (new : l.submitted = false) :
      Move l 0
        { l with
          request := .submitted tuning pageWindow
          tokens := .submitting ::ₘ l.tokens
          submitted := true }
  | stop : Move l 0 { l with stopping := true, tokens := l.tokens.filter (· ≠ .pending) }
  | join (stopping : l.stopping = true) (external : ∀ t ∈ l.tokens, t.isExternal = true) :
      Move l 0 { l with joined := true }
  | abandon (joined : l.joined = true) (old : l.submitted = true) (times : ℕ) :
      Move l 0 { l with tokens := Multiset.replicate times .finishing + l.tokens }

end Ledger

end GRParse.Scheduler
