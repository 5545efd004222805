import GRParse.Scheduler.Ledger
import GRParse.Scheduler.Threads

/-!
# Keeping the ledgers

Every pending action and every entry of a queue holds at most one token of one document.
Collecting them gives each document its ledger (`Pool.ledger`), and a step of the
scheduler is a move of every ledger (`Step.move`).  So what holds of all moves of the
ledger holds of all steps of the scheduler.
-/

namespace GRParse.Scheduler

open List Function Op Token

/-- Tokens with the documents they are for. -/
abbrev Holdings := Multiset (RequestId × Token)

/-- The tokens held for one document. -/
def Holdings.of (h : Holdings) (d : RequestId) : Multiset Token :=
  (h.filter (·.1 = d)).map (·.2)

@[simp]
theorem Holdings.of_zero (d : RequestId) :
  Holdings.of 0 d = 0
  := rfl

@[simp]
theorem Holdings.of_add (h h' : Holdings) (d : RequestId) :
  Holdings.of (h + h') d = Holdings.of h d + Holdings.of h' d
  := by
  simp [Holdings.of]

/-- What is held for one document, as holdings. -/
def Token.heldFor (tokens : Multiset Token) (d : RequestId) : Holdings :=
  tokens.map (d, ·)

@[simp]
theorem Holdings.of_heldFor (tokens : Multiset Token) (d e : RequestId) :
  Holdings.of (Token.heldFor tokens d) e = if d = e then tokens else 0
  := by
  split_ifs with hde
  · simp [Holdings.of, heldFor, hde, Multiset.filter_map]
  · simp [Holdings.of, heldFor, hde, Multiset.filter_map]

/-- The token of one document. -/
def Token.for (t : Token) (d : RequestId) : Holdings :=
  {(d, t)}

@[simp]
theorem Token.heldFor_zero (d : RequestId) :
  Token.heldFor 0 d = 0
  := rfl

@[simp]
theorem Token.heldFor_singleton (t : Token) (d : RequestId) :
  Token.heldFor {t} d = t.for d
  := rfl

@[simp]
theorem Token.heldFor_cons (t : Token) (tokens : Multiset Token) (d : RequestId) :
  Token.heldFor (t ::ₘ tokens) d = t.for d + Token.heldFor tokens d
  := by
  simp [Token.heldFor, Token.for]

variable {x : RequestId × Token}

/-- What is held by the members of a list together is held by one of them. -/
@[simp]
theorem Holdings.mem_sum_map {α : Type} {f : α → Holdings} {l : List α} :
  x ∈ (l.map f).sum ↔ ∃ a ∈ l, x ∈ f a
  := by
  induction l with
  | nil => simp
  | cons a l ih => simp [ih]

/-! ### Who holds what -/

/-- The token a pending action holds. -/
@[simp]
def Op.holds : Op → Holdings
  | .submitPush d => Token.submitting.for d
  | .openDocument d | .openSource d | .countPages d | .publishPages d _ _ =>
    Token.opening.for d
  | .callOnDocument d _ => Token.announcing.for d
  | .returnOnDocument d | .fail d _ .settleOpen | .cancel d .settleOpen | .settleOpen d =>
    Token.returning.for d
  | .renderPage page | .readPage page | .pageRendered page _ | .pushInference page _
  | .pushAssembly page | .recognizePage ⟨page, _⟩ | .runRecognition ⟨page, _⟩
  | .assemblePage page | .callOnPage page | .returnOnPage page =>
    (Token.held page.pageNumber).for page.request
  | .fail d _ (.complete pageNumber _) | .cancel d (.complete pageNumber _) =>
    (Token.held pageNumber).for d
  | .completePage page _ => (Token.leaving page.pageNumber).for page.request
  | .countPage page => (Token.settled [page.pageNumber]).for page.request
  | .countCancelled d first last => (Token.settled (pageSpan first last)).for d
  | .finishRequest d | .fail d _ .abandon | .cancel d .abandon => Token.finishing.for d
  | .retireRequest d | .callOnFinish d => Token.closing.for d
  | .queueReschedule d => Token.waking.for d
  | .setPending d => Token.setting.for d
  | .pushPending d => Token.pushing.for d
  | .clearPending d => Token.clearing.for d
  | .schedulePages d => Token.scheduling.for d
  | .scheduleLoop d => Token.filling.for d
  | _ => 0

/-- The tokens pending actions hold. -/
def Op.allHold (ops : List Op) : Holdings :=
  (ops.map Op.holds).sum

@[simp]
theorem Op.allHold_nil :
  Op.allHold [] = 0
  := rfl

@[simp]
theorem Op.allHold_cons (op : Op) (ops : List Op) :
  Op.allHold (op :: ops) = op.holds + Op.allHold ops
  := by
  simp [allHold]

@[simp]
theorem Op.allHold_append (ops ops' : List Op) :
  Op.allHold (ops ++ ops') = Op.allHold ops + Op.allHold ops'
  := by
  simp [allHold]

theorem Op.allHold_perm {ops ops' : List Op} (h : ops.Perm ops') :
  Op.allHold ops = Op.allHold ops'
  := (h.map holds).sum_eq

/-- The wakeups registered with a queue. -/
def waitersHold (waiters : List RequestId) : Holdings :=
  (waiters.map Token.waking.for).sum

theorem Op.allHold_queueReschedule (waiters : List RequestId) :
  Op.allHold (waiters.map .queueReschedule) = waitersHold waiters
  := by
  rw [allHold, map_map]
  rfl

/-- The tokens a queue holds, for its jobs and for its waiters. -/
def BoundedQueue.holds {α : Type} (q : BoundedQueue α RequestId) (job : α → Holdings) :
    Holdings :=
  (q.queue.map job).sum + waitersHold q.spaceWaiters

/-- The token of a document in the queue of the openers. -/
def documentHolds (d : RequestId) : Holdings :=
  Token.opening.for d

/-- The token of a page in the render or the assembly queue. -/
def PageJob.holds (page : PageJob) : Holdings :=
  (Token.held page.pageNumber).for page.request

/-- The token of a page in the inference queue. -/
def InferenceJob.holds (job : InferenceJob) : Holdings :=
  job.page.holds

/-- The tokens the shared state holds. -/
def State.holds (s : State) : Holdings :=
  s.documents.holds documentHolds + s.render.holds PageJob.holds +
    s.inference.holds InferenceJob.holds + s.assembly.holds PageJob.holds +
    (s.pendingReschedules.map Token.pending.for).sum

section Queues

variable {α : Type} {q q' : BoundedQueue α RequestId} {value : α} (job : α → Holdings)

/-- A pop hands out the token of the job and the wakeups of the waiters. -/
theorem BoundedQueue.holds_pop {waiters : List RequestId} (h : q.pop = some (value, waiters, q')) :
  q.holds job = job value + waitersHold waiters + q'.holds job
  := by
  obtain ⟨hqueue, hwaiters, hnone, -⟩ := pop_eq_some h
  simp only [holds, hqueue, ← hwaiters, hnone, map_cons, sum_cons]
  simp only [waitersHold, map_nil, sum_nil, add_zero]
  ac_rfl

/-- A push takes the token of the job. -/
theorem BoundedQueue.holds_tryPush {onSpace : Option RequestId}
    (h : q.tryPush value onSpace = (q', true)) :
  q'.holds job = job value + q.holds job
  := by
  obtain ⟨hqueue, hwaiters, -⟩ := tryPush_eq_true h
  simp only [holds, hqueue, hwaiters, map_append, map_cons, map_nil,
    sum_append, sum_cons, sum_nil, add_zero]
  ac_rfl

/-- A push takes the token of the job. -/
theorem BoundedQueue.holds_push (h : q.push value = (q', true)) :
  q'.holds job = job value + q.holds job
  := by
  obtain ⟨hqueue, hwaiters, -⟩ := push_eq_true h
  simp only [holds, hqueue, hwaiters, map_append, map_cons, map_nil,
    sum_append, sum_cons, sum_nil, add_zero]
  ac_rfl

/-- A refused push leaves at most a wakeup. -/
theorem BoundedQueue.holds_refused {onSpace : Option RequestId}
    (h : q.tryPush value onSpace = (q', false)) :
  q'.holds job = q.holds job ∧ (q.closed = true ∨ onSpace = none) ∨
    q'.holds job = waitersHold onSpace.toList + q.holds job ∧ q.closed = false
  := by
  obtain ⟨hqueue, -, -, ⟨hclosed, hwaiters⟩ | ⟨hclosed, -, hwaiters⟩⟩ := tryPush_eq_false h
  · apply Or.inl
    simp [holds, hqueue, hwaiters, hclosed]
  · apply Or.inr
    refine ⟨?_, hclosed⟩
    simp only [holds, hqueue, hwaiters, waitersHold, map_append, sum_append]
    ac_rfl

/-- A close hands out the wakeups of the waiters. -/
theorem BoundedQueue.holds_close :
  q.holds job = waitersHold q.close.1 + q.close.2.holds job
  := by
  simp only [holds, close, waitersHold, map_nil, sum_nil, add_zero]
  ac_rfl

end Queues

/-! ### What an action does to the holdings -/

/-- The flags and the serial numbers are the same in two states. -/
structure State.SameFlags (s s' : State) : Prop where
  serial : s'.nextSerial = s.nextSerial
  stopping : s'.stopping = s.stopping
  joined : s'.joined = s.joined

/-- How an action changes the requests and the holdings of a scheduler: not at all, by one
entry for one document, or by one of the four events that concern them all. -/
inductive Effect (c : Pool) (held : Holdings) (s' : State) (held' : Holdings) : Prop where
  | idle (requests : s'.requests = c.shared.requests) (flags : c.shared.SameFlags s')
      (holds : held' = held)
  | act (common : Holdings) {d : RequestId} {taken put : Multiset Token} {r : Request}
      (act : Act c.shared.stopping c.shared.joined (c.shared.requests d) taken r put)
      (requests : s'.requests = Function.update c.shared.requests d r)
      (flags : c.shared.SameFlags s')
      (holds : held = Token.heldFor taken d + common)
      (holds' : held' = Token.heldFor put d + common)
  | submit (tuning : OcrTuning) (registered : s' = c.shared.register tuning)
      (holds : held' = Token.submitting.for c.shared.nextSerial + held)
  | stop (stopped : s' = { c.shared with stopping := true, pendingReschedules := [] })
      (holds : held = (c.shared.pendingReschedules.map Token.pending.for).sum + held')
      (none_left : ∀ x ∈ held', x.2 ≠ .pending)
  | join (stopping : c.shared.stopping = true) (exited : c.exited)
      (joined : s' = { c.shared with joined := true }) (holds : held' = held)
  | abandon (joined : c.shared.joined = true) (same : s' = c.shared)
      (holds : held' = (c.shared.activeRequests.map Token.finishing.for).sum + held)

variable {c : Pool} {s' : State}

/-- An action that trades its own token, and touches no queue. -/
theorem Effect.own {held held' : Holdings} {d : RequestId} {taken put : Multiset Token}
    {r : Request} (act : Act c.shared.stopping c.shared.joined (c.shared.requests d) taken r put)
    (requests : s'.requests = Function.update c.shared.requests d r)
    (flags : c.shared.SameFlags s') (holds : s'.holds = c.shared.holds)
    (before : held = Token.heldFor taken d) (after : held' = Token.heldFor put d) :
  Effect c (held + c.shared.holds) s' (held' + s'.holds)
  := by
  apply Effect.act c.shared.holds act requests flags
  · rw [before]
  · rw [after, holds]

variable {op : Op} {next : List Op}

theorem CallerExec.effect (h : CallerExec c.shared op s' next) (sequenced : c.shared.Sequenced) :
  Effect c (op.holds + c.shared.holds) s' (Op.allHold next + s'.holds)
  := by
  cases h with
  | submitSaturated =>
    exact .idle rfl ⟨rfl, rfl, rfl⟩ (by simp [holds, State.holds])
  | submit tuning room =>
    exact .submit tuning rfl (by simp [holds, State.holds, State.register])
  | ticketCancel d => exact .idle rfl ⟨rfl, rfl, rfl⟩ (by simp [holds])
  | ticketRelease d slots => exact .idle rfl ⟨rfl, rfl, rfl⟩ (by simp [holds])
  | @submitPush d documents pushed =>
    obtain ⟨-, -, opened, -⟩ := BoundedQueue.tryPush_eq_true pushed
    have workers : c.shared.joined = false := by
      by_contra hjoined
      have hstopping := sequenced.joined (by simpa using hjoined)
      have hclosed := (sequenced.stopping hstopping).1
      simp_all
    have hpushed := BoundedQueue.holds_tryPush documentHolds pushed
    refine .act c.shared.holds (.admitted workers) rfl ⟨rfl, rfl, rfl⟩ ?_ ?_
    · rfl
    · simp only [allHold_nil, zero_add, State.holds, State.setRequest_documents, hpushed]
      simp only [documentHolds]
      simp [add_assoc]
  | @submitRefused d documents refused =>
    obtain ⟨hsame, -⟩ | ⟨hsame, -⟩ := BoundedQueue.holds_refused documentHolds refused
    · refine .act c.shared.holds .refuse (update_eq_self d _).symm ⟨rfl, rfl, rfl⟩ ?_ ?_
      · rfl
      · simp [State.holds, State.reject, hsame]
    · refine .act c.shared.holds .refuse (update_eq_self d _).symm ⟨rfl, rfl, rfl⟩ ?_ ?_
      · rfl
      · simp [State.holds, State.reject, hsame, waitersHold]

theorem RequestExec.effect (h : RequestExec c.shared op s' next) (legal : c.shared.Legal op)
    (sequenced : c.shared.Sequenced) :
  Effect c (op.holds + c.shared.holds) s' (Op.allHold next + s'.holds)
  := by
  cases h with
  | @cancel d next =>
    cases next with
    | wake =>
      exact .own .cancelWake rfl ⟨rfl, rfl, rfl⟩ rfl rfl
        (by simp [AfterCancel.code, holds])
    | complete pageNumber outcome =>
      exact .own .cancelPage rfl ⟨rfl, rfl, rfl⟩ rfl rfl
        (by simp [AfterCancel.code, holds])
    | settleOpen =>
      exact .own .cancelOpen rfl ⟨rfl, rfl, rfl⟩ rfl rfl
        (by simp [AfterCancel.code, holds])
    | shutdown =>
      exact .own (.cancelStopping legal) rfl ⟨rfl, rfl, rfl⟩ rfl rfl
        (by simp [AfterCancel.code, holds])
    | abandon =>
      have stopping := sequenced.joined legal
      refine .act (finishing.for d + c.shared.holds) (.cancelStopping stopping) rfl ⟨rfl, rfl, rfl⟩ ?_ ?_
      · simp [holds]
      · simp [AfterCancel.code, holds, State.holds]
  | @fail d value next =>
    refine .act (holds (.fail d value next) + c.shared.holds) (.fail _) rfl ⟨rfl, rfl, rfl⟩ ?_ ?_
    · simp
    · cases next <;> simp [holds, State.holds]
  | readSource => exact .idle rfl ⟨rfl, rfl, rfl⟩ (by simp [holds])
  | releaseNothing => exact .idle rfl ⟨rfl, rfl, rfl⟩ (by simp [holds])
  | releaseSlots => exact .idle rfl ⟨rfl, rfl, rfl⟩ (by simp [holds])
  | addSlots =>
    exact .own (.credit _) rfl ⟨rfl, rfl, rfl⟩ rfl rfl
      (by simp [holds])
  | rescheduleFinished finished =>
    exact .own (.wakeFinished finished) (update_eq_self _ _).symm ⟨rfl, rfl, rfl⟩ rfl rfl rfl
  | queueReschedule unfinished =>
    exact .own .wake (update_eq_self _ _).symm ⟨rfl, rfl, rfl⟩ rfl rfl
      (by simp [holds])
  | alreadyPending pending =>
    exact .own (.alreadyPending pending) (update_eq_self _ _).symm ⟨rfl, rfl, rfl⟩ rfl rfl rfl
  | setPending idle =>
    exact .own .setPending rfl ⟨rfl, rfl, rfl⟩ rfl rfl
      (by simp [holds])
  | pushStopping stopping =>
    exact .own (.dropPending stopping) (update_eq_self _ _).symm ⟨rfl, rfl, rfl⟩ rfl rfl rfl
  | @pushPending d running =>
    refine .act c.shared.holds (.pushPending running) (update_eq_self d _).symm ⟨rfl, rfl, rfl⟩ ?_ ?_
    · rfl
    · simp only [allHold_nil, zero_add, State.holds, map_append, sum_append,
        map_cons, map_nil, sum_cons, sum_nil, add_zero,
        heldFor_singleton]
      ac_rfl
  | alreadyFinished finished =>
    exact .own (.finishAgain finished) (update_eq_self _ _).symm ⟨rfl, rfl, rfl⟩ rfl rfl rfl
  | finishRequest unfinished =>
    exact .own (.finish unfinished) rfl ⟨rfl, rfl, rfl⟩ rfl rfl
      (by simp [holds])
  | retireRequest => exact .idle rfl ⟨rfl, rfl, rfl⟩ (by simp [holds, State.holds])
  | callOnFinish => exact .own .onFinish rfl ⟨rfl, rfl, rfl⟩ rfl rfl rfl
  | completePage =>
    refine .own (.complete _) rfl ⟨rfl, rfl, rfl⟩ rfl rfl ?_
    split_ifs with hcancelled
    · simp [holds]
    · simp [holds]
  | countPage =>
    refine .own .count rfl ⟨rfl, rfl, rfl⟩ rfl rfl ?_
    simp only [length_singleton, Nat.cast_one]
    split_ifs with hlast
    · simp [holds]
    · rfl

theorem OpenExec.effect (h : OpenExec c.shared op s' next) (legal : c.shared.Legal op) :
  Effect c (op.holds + c.shared.holds) s' (Op.allHold next + s'.holds)
  := by
  cases h with
  | @popDocument d waiters documents popped =>
    refine .idle rfl ⟨rfl, rfl, rfl⟩ ?_
    have hpopped := BoundedQueue.holds_pop documentHolds popped
    simp only [allHold_append, allHold_queueReschedule, allHold_cons, allHold_nil,
      holds, State.holds, hpopped, documentHolds]
    simp only [add_zero, zero_add]
    ac_rfl
  | documentsDone => exact .idle rfl ⟨rfl, rfl, rfl⟩ rfl
  | @openCancelled d cancelled =>
    exact .own .openCancelled (update_eq_self d _).symm ⟨rfl, rfl, rfl⟩ rfl rfl
      (by simp [holds])
  | openDocument => exact .idle rfl ⟨rfl, rfl, rfl⟩ (by simp [holds])
  | @openRaises d =>
    exact .own .openFails (update_eq_self d _).symm ⟨rfl, rfl, rfl⟩ rfl rfl
      (by simp [holds])
  | openSource =>
    exact .own .openSource rfl ⟨rfl, rfl, rfl⟩ rfl rfl (by simp [holds])
  | @countRaises d =>
    exact .own .openFails (update_eq_self d _).symm ⟨rfl, rfl, rfl⟩ rfl rfl
      (by simp [holds])
  | @spanRefused d =>
    exact .own .openFails (update_eq_self d _).symm ⟨rfl, rfl, rfl⟩ rfl rfl
      (by simp [holds])
  | countPages => exact .idle rfl ⟨rfl, rfl, rfl⟩ (by simp [holds])
  | publishPages =>
    exact .own (.publish legal.1 legal.2) rfl ⟨rfl, rfl, rfl⟩ rfl rfl (by simp [holds])
  | callOnDocument =>
    exact .own (.announce _) rfl ⟨rfl, rfl, rfl⟩ rfl rfl (by simp [holds])
  | onDocumentRaises => exact .idle rfl ⟨rfl, rfl, rfl⟩ (by simp [holds])
  | @onDocumentReturns d =>
    exact .own .opened (update_eq_self d _).symm ⟨rfl, rfl, rfl⟩ rfl rfl
      (by simp [holds])
  | @settleOpen d =>
    split_ifs with hnone
    · exact .own (.settleOpen hnone) (update_eq_self d _).symm ⟨rfl, rfl, rfl⟩ rfl
        rfl (by simp [holds])
    · exact .own .opened (update_eq_self d _).symm ⟨rfl, rfl, rfl⟩ rfl rfl
        (by simp [holds])

theorem ScheduleExec.effect (h : ScheduleExec c.shared op s' next) (legal : c.shared.Legal op)
    (sequenced : c.shared.Sequenced) :
  Effect c (op.holds + c.shared.holds) s' (Op.allHold next + s'.holds)
  := by
  cases h with
  | @popReschedule d rest running front =>
    refine .act { c.shared with pendingReschedules := rest }.holds .popPending
      (update_eq_self d _).symm ⟨rfl, rfl, rfl⟩ ?_ ?_
    · simp only [holds, State.holds, front, map_cons, sum_cons,
        heldFor_singleton, zero_add]
      ac_rfl
    · simp [holds]
  | reschedulerDone => exact .idle rfl ⟨rfl, rfl, rfl⟩ rfl
  | clearPending =>
    exact .own .clearPending rfl ⟨rfl, rfl, rfl⟩ rfl rfl (by simp [holds])
  | @notPublished d unlocked unpublished =>
    exact .own (.notPublished unpublished) (update_eq_self d _).symm
      ⟨rfl, rfl, rfl⟩ rfl rfl rfl
  | cancelRest unlocked source published cancelled left =>
    exact .own (.cancelRest published left) rfl ⟨rfl, rfl, rfl⟩ rfl rfl (by simp [holds])
  | @nothingLeft d unlocked source published cancelled none_left =>
    exact .own (.nothingLeft none_left) (update_eq_self d _).symm
      ⟨rfl, rfl, rfl⟩ rfl rfl rfl
  | schedulePages unlocked source published live =>
    exact .own (.schedulePages published live) rfl ⟨rfl, rfl, rfl⟩ rfl rfl
      (by simp [holds])
  | @schedulePage d render slots left pushed =>
    have hpushed := BoundedQueue.holds_tryPush PageJob.holds pushed
    refine .act c.shared.holds (.schedulePage left) rfl ⟨rfl, rfl, rfl⟩ rfl ?_
    simp only [allHold_cons, allHold_nil, holds, State.holds, hpushed,
      State.setRequest_documents, State.setRequest_render, State.setRequest_inference,
      State.setRequest_assembly, State.setRequest_pendingReschedules, PageJob.holds,
      Multiset.insert_eq_cons, heldFor_cons, heldFor_singleton]
    simp only [add_zero]
    ac_rfl
  | @renderRefused d render slots left refused =>
    obtain ⟨hsame, hclosed⟩ | ⟨hsame, -⟩ := BoundedQueue.holds_refused PageJob.holds refused
    · have hclosed : c.shared.render.closed = true := by simpa using hclosed
      refine .act c.shared.holds (.renderClosed (sequenced.render hclosed)) rfl
        ⟨rfl, rfl, rfl⟩ rfl ?_
      simp [State.holds, hsame]
    · refine .act c.shared.holds .renderFull rfl ⟨rfl, rfl, rfl⟩ rfl ?_
      simp only [allHold_nil, State.holds, hsame, State.setRequest_documents,
        State.setRequest_render, State.setRequest_inference, State.setRequest_assembly,
        State.setRequest_pendingReschedules, heldFor_singleton, waitersHold,
        Option.toList_some, map_cons, map_nil, sum_cons, sum_nil]
      simp only [add_zero, zero_add]
      ac_rfl
  | scheduled done =>
    exact .own (.scheduled done) rfl ⟨rfl, rfl, rfl⟩ rfl rfl rfl
  | @countCancelled d first last =>
    have hspan : first ≤ last := legal
    have hlength : ((pageSpan first last).length : ℤ) = last - first + 1 :=
      length_pageSpan (by omega)
    refine .own .count ?_ ⟨rfl, rfl, rfl⟩ rfl rfl ?_
    · rw [hlength]
      rfl
    · rw [hlength]
      split_ifs with hlast
      · simp [holds]
      · rfl

theorem StageExec.effect (h : StageExec c.shared op s' next) :
  Effect c (op.holds + c.shared.holds) s' (Op.allHold next + s'.holds)
  := by
  cases h with
  | popRender popped =>
    refine .idle rfl ⟨rfl, rfl, rfl⟩ ?_
    have hpopped := BoundedQueue.holds_pop PageJob.holds popped
    simp only [allHold_append, allHold_queueReschedule, allHold_cons, allHold_nil,
      holds, State.holds, hpopped, PageJob.holds]
    simp only [add_zero, zero_add]
    ac_rfl
  | popInference popped =>
    refine .idle rfl ⟨rfl, rfl, rfl⟩ ?_
    have hpopped := BoundedQueue.holds_pop InferenceJob.holds popped
    simp only [allHold_append, allHold_queueReschedule, allHold_cons, allHold_nil,
      holds, State.holds, hpopped, InferenceJob.holds, PageJob.holds]
    simp only [add_zero, zero_add]
    ac_rfl
  | popAssembly popped =>
    refine .idle rfl ⟨rfl, rfl, rfl⟩ ?_
    have hpopped := BoundedQueue.holds_pop PageJob.holds popped
    simp only [allHold_append, allHold_queueReschedule, allHold_cons, allHold_nil,
      holds, State.holds, hpopped, PageJob.holds]
    simp only [add_zero, zero_add]
    ac_rfl
  | renderDone | inferenceDone | assemblyDone => exact .idle rfl ⟨rfl, rfl, rfl⟩ rfl
  | @renderCancelled page =>
    exact .own .leave (update_eq_self page.request _).symm ⟨rfl, rfl, rfl⟩ rfl rfl
      (by simp [holds])
  | @renderedCancelled page =>
    exact .own .leave (update_eq_self page.request _).symm ⟨rfl, rfl, rfl⟩ rfl rfl
      (by simp [holds])
  | @recognizeCancelled job =>
    exact .own .leave (update_eq_self job.page.request _).symm ⟨rfl, rfl, rfl⟩ rfl
      rfl (by simp [holds])
  | @assembleCancelled page =>
    exact .own .leave (update_eq_self page.request _).symm ⟨rfl, rfl, rfl⟩ rfl rfl
      (by simp [holds])
  | pushInference ready pushed =>
    refine .idle rfl ⟨rfl, rfl, rfl⟩ ?_
    have hpushed := BoundedQueue.holds_push InferenceJob.holds pushed
    simp only [allHold_nil, holds, State.holds, hpushed, InferenceJob.holds,
      PageJob.holds]
    simp only [zero_add]
    ac_rfl
  | pushAssembly ready pushed =>
    refine .idle rfl ⟨rfl, rfl, rfl⟩ ?_
    have hpushed := BoundedQueue.holds_push PageJob.holds pushed
    simp only [allHold_nil, holds, State.holds, hpushed, PageJob.holds]
    simp only [zero_add]
    ac_rfl
  | inferenceClosed ready refused =>
    obtain ⟨rfl, -⟩ := BoundedQueue.push_eq_false refused
    exact .idle rfl ⟨rfl, rfl, rfl⟩ (by simp [holds])
  | assemblyClosed ready refused =>
    obtain ⟨rfl, -⟩ := BoundedQueue.push_eq_false refused
    exact .idle rfl ⟨rfl, rfl, rfl⟩ (by simp [holds])
  | callOnPage =>
    exact .own .deliver rfl ⟨rfl, rfl, rfl⟩ rfl rfl (by simp [holds])
  | @onPageReturns page delivery =>
    cases delivery with
    | accepted | acceptedAndRelease =>
      exact .own .leave (update_eq_self page.request _).symm ⟨rfl, rfl, rfl⟩ rfl rfl
        (by simp [holds])
    | cancelled => exact .idle rfl ⟨rfl, rfl, rfl⟩ (by simp [holds])
  | readDigitally | rasterize | runRecognition =>
    exact .idle rfl ⟨rfl, rfl, rfl⟩ (by simp [holds, State.holds])
  | renderPage | readRaises | pageRendered | recognizePage | recognitionRaises | assemblePage
  | onPageRaises | timingRaises =>
    exact .idle rfl ⟨rfl, rfl, rfl⟩ (by simp [holds])

/-- The tokens of a queue, one by one. -/
theorem BoundedQueue.mem_holds {α : Type} {q : BoundedQueue α RequestId} {job : α → Holdings} :
  x ∈ q.holds job ↔
    (∃ value ∈ q.queue, x ∈ job value) ∨ ∃ d ∈ q.spaceWaiters, x = (d, .waking)
  := by
  simp [BoundedQueue.holds, waitersHold, Token.for]

/-- The tokens of the shared state, one by one. -/
theorem State.mem_holds {s : State} {d : RequestId} {t : Token} (h : (d, t) ∈ s.holds) :
  t = .opening ∧ d ∈ s.documents.queue ∨
  t = .waking ∧ (d ∈ s.documents.spaceWaiters ∨ d ∈ s.render.spaceWaiters ∨
    d ∈ s.inference.spaceWaiters ∨ d ∈ s.assembly.spaceWaiters) ∨
  t = .pending ∧ d ∈ s.pendingReschedules ∨
  ∃ pageNumber, t = .held pageNumber ∧ (⟨d, pageNumber⟩ ∈ s.render.queue ∨
    (∃ job ∈ s.inference.queue, job.page = ⟨d, pageNumber⟩) ∨
    ⟨d, pageNumber⟩ ∈ s.assembly.queue)
  := by
  simp only [State.holds, Multiset.mem_add, BoundedQueue.mem_holds, Holdings.mem_sum_map,
    documentHolds, PageJob.holds, InferenceJob.holds, Token.for, Multiset.mem_singleton,
    Prod.mk.injEq] at h
  obtain ((((⟨_, h, rfl, rfl⟩ | ⟨_, h, rfl, rfl⟩) | ⟨page, h, rfl, rfl⟩ | ⟨_, h, rfl, rfl⟩) |
    ⟨job, h, rfl, rfl⟩ | ⟨_, h, rfl, rfl⟩) | ⟨page, h, rfl, rfl⟩ | ⟨_, h, rfl, rfl⟩) |
    ⟨_, h, rfl, rfl⟩ := h
  · simp [h]
  · simp [h]
  · simp [h]
  · simp [h]
  · simp only [reduceCtorEq, false_and, false_or]
    exact ⟨_, rfl, Or.inr (Or.inl ⟨job, h, rfl⟩)⟩
  · simp [h]
  · simp [h]
  · simp [h]
  · simp [h]

/-- No pending action holds the token of a pending reschedule. -/
theorem Op.holds_ne_pending (h : x ∈ op.holds) :
  x.2 ≠ .pending
  := by
  cases op with
  | fail d value next => cases next <;> simp_all [holds, Token.for]
  | cancel d next => cases next <;> simp_all [holds, Token.for]
  | _ => simp_all [holds, Token.for]

theorem StopExec.effect (h : StopExec c.shared c.exited op s' next) (legal : c.shared.Legal op) :
  Effect c (op.holds + c.shared.holds) s' (Op.allHold next + s'.holds)
  := by
  cases h with
  | stop =>
    refine .idle rfl ⟨rfl, rfl, rfl⟩ ?_
    simp only [allHold_append, allHold_queueReschedule, allHold_cons, allHold_nil,
      holds, State.holds, c.shared.documents.holds_close documentHolds]
    simp only [add_zero, zero_add]
    ac_rfl
  | stopReschedules =>
    apply Effect.stop rfl
    · simp only [holds, State.holds, allHold_cons, allHold_nil, map_nil,
        sum_nil]
      simp only [add_zero, zero_add]
      ac_rfl
    · rintro ⟨d, t⟩ hx rfl
      simp only [allHold_cons, allHold_nil, holds, zero_add] at hx
      simpa using State.mem_holds hx
  | closeRender =>
    refine .idle rfl ⟨rfl, rfl, rfl⟩ ?_
    simp only [allHold_append, allHold_queueReschedule, allHold_cons, allHold_nil,
      holds, State.holds, c.shared.render.holds_close PageJob.holds]
    simp only [add_zero, zero_add]
    ac_rfl
  | closeInference =>
    refine .idle rfl ⟨rfl, rfl, rfl⟩ ?_
    simp only [allHold_append, allHold_queueReschedule, allHold_cons, allHold_nil,
      holds, State.holds, c.shared.inference.holds_close InferenceJob.holds]
    simp only [add_zero, zero_add]
    ac_rfl
  | closeAssembly =>
    refine .idle rfl ⟨rfl, rfl, rfl⟩ ?_
    simp only [allHold_append, allHold_queueReschedule, allHold_cons, allHold_nil,
      holds, State.holds, c.shared.assembly.holds_close PageJob.holds]
    simp only [add_zero, zero_add]
    ac_rfl
  | failOpening => exact .idle rfl ⟨rfl, rfl, rfl⟩ (by simp [holds, allHold, comp_def])
  | failIfOpening =>
    refine .idle rfl ⟨rfl, rfl, rfl⟩ ?_
    split_ifs <;> simp [holds]
  | joinWorkers joined =>
    exact .join legal joined rfl (by simp [holds, State.holds])
  | abandonRequests =>
    apply Effect.abandon legal rfl
    simp [holds, allHold, comp_def]

theorem Exec.effect {c : Pool} {op : Op} {s' : State} {next : List Op}
    (h : Exec c op s' next) (legal : c.shared.Legal op) (sequenced : c.shared.Sequenced) :
  Effect c (op.holds + c.shared.holds) s' (Op.allHold next + s'.holds)
  := by
  cases h with
  | caller h => exact h.effect sequenced
  | request h => exact h.effect legal sequenced
  | opening h => exact h.effect legal
  | schedule h => exact h.effect legal sequenced
  | stage h => exact h.effect
  | stop h => exact h.effect legal

/-! ### The ledger of a document -/

/-- The tokens a scheduler holds. -/
def Pool.holds (c : Pool) : Holdings :=
  Op.allHold c.ops + c.shared.holds

/-- What a scheduler knows and owes of one document. -/
def Pool.ledger (c : Pool) (d : RequestId) : Ledger where
  request := c.shared.requests d
  tokens := c.holds.of d
  submitted := decide (d < c.shared.nextSerial)
  stopping := c.shared.stopping
  joined := c.shared.joined

/-- A token of a document is held for it. -/
theorem Pool.mem_tokens {d : RequestId} {t : Token} :
  t ∈ (c.ledger d).tokens ↔ (∃ op ∈ c.ops, (d, t) ∈ op.holds) ∨ (d, t) ∈ c.shared.holds
  := by
  simp [Pool.ledger, Holdings.of, Pool.holds, allHold]

/-- External actions hold external tokens. -/
theorem Op.isExternal_holds (external : op.isExternal = true) (h : x ∈ op.holds) :
  x.2.isExternal = true
  := by
  cases op with
  | fail d value next =>
    cases next <;> simp_all [isExternal, holds, Token.for, Token.isExternal]
  | cancel d next =>
    cases next <;> simp_all [isExternal, holds, Token.for, Token.isExternal]
  | _ => simp_all [isExternal, holds, Token.for, Token.isExternal]

/-- Only external tokens are left once the workers have exited. -/
theorem Pool.Orderly.external_of_exited (h : c.Orderly) (exited : c.exited) (d : RequestId) :
  ∀ t ∈ (c.ledger d).tokens, t.isExternal = true
  := by
  obtain ⟨drained, external⟩ := h.exited exited
  have documents := drained .opener .popDocument rfl
  have stopping := drained .rescheduler .popReschedule rfl
  have render := drained .renderWorker .popRender rfl
  have inference := drained .inferenceWorker .popInference rfl
  have assembly := drained .assemblyWorker .popAssembly rfl
  have pending := (h.sequenced.stopping stopping).2
  simp only [State.Drained] at documents render inference assembly
  intro t ht
  obtain ⟨op, hop, ht⟩ | ht := Pool.mem_tokens.mp ht
  · apply isExternal_holds (external op hop) ht
  · obtain ⟨-, h⟩ | ⟨rfl, -⟩ | ⟨-, h⟩ | ⟨pageNumber, -, h⟩ := State.mem_holds ht
    · simp [documents] at h
    · rfl
    · simp [pending] at h
    · simp [render, inference, assembly] at h

/-- Only `schedule_pages` holds the token of a call of `schedule_pages`. -/
theorem Op.eq_schedulePages {d : RequestId} (h : (d, .scheduling) ∈ op.holds) :
  op = .schedulePages d
  := by
  cases op with
  | fail d value next => cases next <;> simp_all [holds, Token.for]
  | cancel d next => cases next <;> simp_all [holds, Token.for]
  | _ => simp_all [holds, Token.for]

/-- Every step of the scheduler is a move of every ledger, and takes a token of
`schedule_pages` only by running that function. -/
theorem Step.move {c c' : Pool} (h : c.Orderly) (step : Step c op c') (d : RequestId) :
  ∃ taken, (c.ledger d).Move taken (c'.ledger d) ∧
    (.scheduling ∈ taken → op = .schedulePages d)
  := by
  obtain ⟨next, rest, runs, hops, hops'⟩ := step.ops_perm
  have legal := h.legal op step.op_mem
  have before : c.holds = (op.holds + c.shared.holds) + allHold rest := by
    rw [Pool.holds, allHold_perm hops, allHold_cons]
    ac_rfl
  have after : c'.holds = (allHold next + c'.shared.holds) + allHold rest := by
    rw [Pool.holds, allHold_perm hops', allHold_append]
    ac_rfl
  cases runs.effect legal h.sequenced with
  | idle requests flags holds =>
    refine ⟨0, ?_, by simp⟩
    have same : c'.ledger d = c.ledger d := by
      simp only [Pool.ledger, requests, flags.serial, flags.stopping, flags.joined, after,
        holds, before]
    rw [same]
    apply Ledger.Move.idle
  | @act common e taken put r act requests flags holds holds' =>
    rw [holds] at before
    rw [holds'] at after
    by_cases hed : e = d
    · subst hed
      refine ⟨taken, ?_, fun hmem => ?_⟩
      · have moved : c'.ledger e =
            { c.ledger e with
              request := r, tokens := put + (common + allHold rest).of e } := by
          simp only [Pool.ledger, requests, flags.serial, flags.stopping, flags.joined, after]
          simp [add_assoc]
        rw [moved]
        apply Ledger.Move.act _ act
        simp only [Pool.ledger, before]
        simp [add_assoc]
      · have hheld : (e, .scheduling) ∈ op.holds + c.shared.holds := by
          rw [holds]
          simp [Token.heldFor, hmem]
        rw [Multiset.mem_add] at hheld
        obtain hheld | hheld := hheld
        · apply eq_schedulePages hheld
        · simpa using State.mem_holds hheld
    · refine ⟨0, ?_, by simp⟩
      have same : c'.ledger d = c.ledger d := by
        simp only [Pool.ledger, requests, flags.serial, flags.stopping, flags.joined, after,
          before]
        simp [hed, Ne.symm hed]
      rw [same]
      apply Ledger.Move.idle
  | submit tuning registered holds =>
    refine ⟨0, ?_, by simp⟩
    rw [holds, add_assoc, ← before] at after
    by_cases hd : c.shared.nextSerial = d
    · have moved : c'.ledger d =
          { c.ledger d with
            request := .submitted tuning c.shared.options.pageWindow
            tokens := .submitting ::ₘ (c.ledger d).tokens
            submitted := true } := by
        simp only [Pool.ledger, after, registered, State.register, hd]
        simp [← Token.heldFor_singleton, Multiset.singleton_add]
      rw [moved]
      apply Ledger.Move.submit
      simp [Pool.ledger, hd]
    · have same : c'.ledger d = c.ledger d := by
        have hserial : d < c.shared.nextSerial + 1 ↔ d < c.shared.nextSerial := by
          rw [Nat.lt_succ_iff_lt_or_eq]
          simp [Ne.symm hd]
        simp only [Pool.ledger, after, registered, State.register, hserial]
        simp [← Token.heldFor_singleton, hd, Ne.symm hd]
      rw [same]
      apply Ledger.Move.idle
  | stop stopped holds none_left =>
    refine ⟨0, ?_, by simp⟩
    have moved : c'.ledger d =
        { c.ledger d with
          stopping := true
          tokens := (c.ledger d).tokens.filter (· ≠ .pending) } := by
      rw [holds, add_assoc, ← after] at before
      have kept : (c'.holds.of d).filter (· ≠ .pending) = c'.holds.of d := by
        rw [Multiset.filter_eq_self]
        intro t ht
        simp only [Holdings.of, Multiset.mem_map, Multiset.mem_filter] at ht
        obtain ⟨x, ⟨hx, -⟩, rfl⟩ := ht
        rw [after, Multiset.mem_add] at hx
        obtain hx | hx := hx
        · apply none_left x hx
        · simp only [allHold, Holdings.mem_sum_map] at hx
          obtain ⟨op, -, hx⟩ := hx
          apply holds_ne_pending hx
      have gone : (Holdings.of (c.shared.pendingReschedules.map Token.pending.for).sum
          d).filter (· ≠ .pending) = 0 := by
        rw [Multiset.filter_eq_nil]
        intro t ht
        simp [Holdings.of, Token.for] at ht
        simp [ht.2]
      have htokens : (c.holds.of d).filter (· ≠ .pending) = c'.holds.of d := by
        rw [before, Holdings.of_add, Multiset.filter_add, gone, kept, zero_add]
      simp only [Pool.ledger, htokens]
      simp [stopped]
    rw [moved]
    apply Ledger.Move.stop
  | join stopping exited joined holds =>
    refine ⟨0, ?_, by simp⟩
    rw [holds, ← before] at after
    have moved : c'.ledger d = { c.ledger d with joined := true } := by
      simp only [Pool.ledger, after, joined]
    rw [moved]
    apply Ledger.Move.join stopping (h.external_of_exited exited d)
  | abandon joined same holds =>
    refine ⟨0, ?_, by simp⟩
    have finishing : ∀ active : List RequestId,
        Holdings.of (active.map Token.finishing.for).sum d =
          Multiset.replicate (active.count d) .finishing := by
      intro active
      induction active with
      | nil => rfl
      | cons e active ih =>
        rw [map_cons, sum_cons, Holdings.of_add, ih, ← Token.heldFor_singleton,
          Holdings.of_heldFor, count_cons]
        by_cases hed : e = d
        · simp [hed, Multiset.replicate_succ]
        · simp [hed]
    have moved : c'.ledger d =
        { c.ledger d with
          tokens := Multiset.replicate (c.shared.activeRequests.count d) .finishing +
            (c.ledger d).tokens } := by
      rw [holds, add_assoc, ← before] at after
      simp only [Pool.ledger, after, same]
      simp [finishing]
    rw [moved]
    by_cases hd : d < c.shared.nextSerial
    · apply Ledger.Move.abandon joined
      simp [Pool.ledger, hd]
    · have inactive : d ∉ c.shared.activeRequests := fun hmem => hd (h.sequenced.active d hmem)
      rw [count_eq_zero_of_not_mem inactive, Multiset.replicate_zero, zero_add]
      apply Ledger.Move.idle

end GRParse.Scheduler
