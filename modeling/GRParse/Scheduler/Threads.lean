import GRParse.Scheduler.Step

/-!
# What the threads hold

A worker of a reachable scheduler holds the rest of one job and the loop it returns to, or
nothing once its queue is closed and empty.  The threads of the callers and of the
destructor hold no job at all.  So once `stop` has joined the workers, no job is left
anywhere (`Pool.Orderly.exited`).

Some actions exist only once `stop` has come far enough, and some carry a page span;
`State.Legal` records what such an action may rely on.
-/

namespace GRParse.Scheduler

open List BoundedQueue State

/-! ### Later states -/

/-- The loop of a worker. -/
def Role.loop : Role → Option Op
  | .opener => some .popDocument
  | .rescheduler => some .popReschedule
  | .renderWorker => some .popRender
  | .inferenceWorker => some .popInference
  | .assemblyWorker => some .popAssembly
  | .caller | .destructor => none

/-- Whether an action is the head of a worker's loop. -/
def Op.isLoop : Op → Bool
  | .popDocument | .popReschedule | .popRender | .popInference | .popAssembly => true
  | _ => false

/-- Whether the loop with the given head ends. -/
def State.Drained (s : State) : Op → Prop
  | .popDocument => s.documents.closed = true ∧ s.documents.queue = []
  | .popReschedule => s.stopping = true
  | .popRender => s.render.closed = true ∧ s.render.queue = []
  | .popInference => s.inference.closed = true ∧ s.inference.queue = []
  | .popAssembly => s.assembly.closed = true ∧ s.assembly.queue = []
  | _ => True

/-- What no action undoes: `s'` may come after `s`. -/
structure State.Precedes (s s' : State) : Prop where
  serial : s.nextSerial ≤ s'.nextSerial
  documents : s.documents.closed = true → s'.documents.closed = true
  stopping : s.stopping = true → s'.stopping = true
  joined : s.joined = true → s'.joined = true
  drained : ∀ op, s.Drained op → s'.Drained op

variable {s s' : State}

/-- A state precedes any that differs in the requests, the registry and the counters. -/
theorem State.Precedes.of_eq (serial : s.nextSerial ≤ s'.nextSerial)
    (documents : s'.documents = s.documents) (render : s'.render = s.render)
    (inference : s'.inference = s.inference) (assembly : s'.assembly = s.assembly)
    (stopping : s'.stopping = s.stopping) (joined : s'.joined = s.joined) :
  s.Precedes s'
  := by
  constructor
  · apply serial
  · rw [documents]; exact id
  · rw [stopping]; exact id
  · rw [joined]; exact id
  · intro op h
    cases op <;> simp_all [State.Drained]

variable {next : List Op} {op : Op}

theorem CallerExec.precedes (h : CallerExec s op s' next) :
  s.Precedes s'
  := by
  cases h with
  | submit => exact .of_eq (Nat.le_succ _) rfl rfl rfl rfl rfl rfl
  | submitPush pushed =>
    obtain ⟨-, -, opened, -⟩ := tryPush_eq_true pushed
    constructor
    · exact le_refl _
    · simp [opened]
    · exact id
    · exact id
    · intro op h
      cases op <;> simp_all [State.Drained, setRequest, setMetrics]
  | submitRefused refused =>
    obtain ⟨queue, closed, -⟩ := tryPush_eq_false refused
    constructor
    · exact le_refl _
    · simp [reject, setMetrics, closed]
    · exact id
    · exact id
    · intro op h
      cases op <;> simp_all [State.Drained, reject, setMetrics]
  | _ => exact .of_eq (le_refl _) rfl rfl rfl rfl rfl rfl

theorem RequestExec.precedes (h : RequestExec s op s' next) :
  s.Precedes s'
  := by
  cases h <;> exact .of_eq (le_refl _) rfl rfl rfl rfl rfl rfl

theorem OpenExec.precedes (h : OpenExec s op s' next) :
  s.Precedes s'
  := by
  cases h with
  | popDocument popped =>
    obtain ⟨-, -, -, closed, -⟩ := pop_eq_some popped
    have nonempty := pop_ne_nil popped
    constructor
    · exact le_refl _
    · simp [closed]
    · exact id
    · exact id
    · intro op h
      cases op <;> simp_all [State.Drained]
  | _ => exact .of_eq (le_refl _) rfl rfl rfl rfl rfl rfl

theorem ScheduleExec.precedes (h : ScheduleExec s op s' next) :
  s.Precedes s'
  := by
  cases h with
  | schedulePage slots left pushed =>
    obtain ⟨-, -, opened, -⟩ := tryPush_eq_true pushed
    constructor
    · exact le_refl _
    · exact id
    · exact id
    · exact id
    · intro op h
      cases op <;> simp_all [State.Drained, setRequest]
  | renderRefused slots left refused =>
    obtain ⟨queue, closed, -⟩ := tryPush_eq_false refused
    constructor
    · exact le_refl _
    · exact id
    · exact id
    · exact id
    · intro op h
      cases op <;> simp_all [State.Drained, setRequest]
  | _ => exact .of_eq (le_refl _) rfl rfl rfl rfl rfl rfl

theorem StageExec.precedes (h : StageExec s op s' next) :
  s.Precedes s'
  := by
  cases h with
  | popRender popped =>
    obtain ⟨-, -, -, closed, -⟩ := pop_eq_some popped
    have nonempty := pop_ne_nil popped
    refine ⟨le_refl _, id, id, id, fun op h => ?_⟩
    cases op <;> simp_all [State.Drained]
  | popInference popped =>
    obtain ⟨-, -, -, closed, -⟩ := pop_eq_some popped
    have nonempty := pop_ne_nil popped
    refine ⟨le_refl _, id, id, id, fun op h => ?_⟩
    cases op <;> simp_all [State.Drained]
  | popAssembly popped =>
    obtain ⟨-, -, -, closed, -⟩ := pop_eq_some popped
    have nonempty := pop_ne_nil popped
    refine ⟨le_refl _, id, id, id, fun op h => ?_⟩
    cases op <;> simp_all [State.Drained]
  | inferenceClosed ready refused =>
    obtain ⟨rfl, -⟩ := push_eq_false refused
    exact .of_eq (le_refl _) rfl rfl rfl rfl rfl rfl
  | pushInference ready pushed =>
    obtain ⟨-, -, opened, -⟩ := push_eq_true pushed
    refine ⟨le_refl _, id, id, id, fun op h => ?_⟩
    cases op <;> simp_all [State.Drained]
  | assemblyClosed ready refused =>
    obtain ⟨rfl, -⟩ := push_eq_false refused
    exact .of_eq (le_refl _) rfl rfl rfl rfl rfl rfl
  | pushAssembly ready pushed =>
    obtain ⟨-, -, opened, -⟩ := push_eq_true pushed
    refine ⟨le_refl _, id, id, id, fun op h => ?_⟩
    cases op <;> simp_all [State.Drained]
  | _ => exact .of_eq (le_refl _) rfl rfl rfl rfl rfl rfl

theorem StopExec.precedes {exited : Prop} (h : StopExec s exited op s' next) :
  s.Precedes s'
  := by
  cases h with
  | failOpening | failIfOpening | abandonRequests =>
    exact .of_eq (le_refl _) rfl rfl rfl rfl rfl rfl
  | _ =>
    refine ⟨le_refl _, ?_, ?_, ?_, fun op h => ?_⟩
    · simp [close]
    · simp
    · simp
    · cases op <;> simp_all [State.Drained, close]

/-- No action undoes a shutdown. -/
theorem Exec.precedes {c : Pool} {op : Op} {s' : State} {next : List Op} (h : Exec c op s' next) :
  c.shared.Precedes s'
  := by
  cases h with
  | caller h => exact h.precedes
  | request h => exact h.precedes
  | opening h => exact h.precedes
  | schedule h => exact h.precedes
  | stage h => exact h.precedes
  | stop h => exact h.precedes

/-! ### What an action may rely on -/

/-- What holds whenever the given action is pending. -/
def State.Legal (s : State) : Op → Prop
  | .submitPush d => d < s.nextSerial
  | .publishPages _ first last => 1 ≤ first ∧ first ≤ last
  | .countCancelled _ first last => first ≤ last
  | .stopReschedules => s.documents.closed = true
  | .closeRender | .closeInference | .closeAssembly | .failOpening | .failIfOpening _
  | .fail _ _ .shutdown | .cancel _ .shutdown | .joinWorkers => s.stopping = true
  | .fail _ _ .abandon | .cancel _ .abandon | .abandonRequests => s.joined = true
  | _ => True

/-- What an action relies on stays true. -/
theorem State.Legal.later {s s' : State} {op : Op} (h : s.Legal op) (later : s.Precedes s') :
  s'.Legal op
  := by
  have hserial := later.serial
  have hdocuments := later.documents
  have hstopping := later.stopping
  have hjoined := later.joined
  cases op with
  | submitPush d => exact lt_of_lt_of_le h hserial
  | fail d value next => cases next <;> simp_all [State.Legal]
  | cancel d next => cases next <;> simp_all [State.Legal]
  | _ => simp_all [State.Legal]

/-- An action leaves behind only actions that may rely on the state it leaves. -/
theorem Exec.legal {c : Pool} {op : Op} {s' : State} {next : List Op}
    (h : Exec c op s' next) (legal : c.shared.Legal op) :
  ∀ op' ∈ next, s'.Legal op'
  := by
  cases h with
  | caller h =>
    cases h with
    | submit =>
      exact forall_mem_cons.mpr ⟨Nat.lt_succ_self _, forall_mem_singleton.mpr trivial⟩
    | _ =>
      repeat' first
        | exact forall_mem_nil _
        | refine forall_mem_cons.mpr ⟨trivial, ?_⟩
  | request h =>
    cases h with
    | @cancel d next =>
      refine forall_mem_cons.mpr ⟨trivial, ?_⟩
      cases next <;>
      repeat' first
        | exact forall_mem_nil _
        | refine forall_mem_cons.mpr ⟨trivial, ?_⟩
    | @fail d value next =>
      refine forall_mem_singleton.mpr ?_
      cases next <;> exact legal
    | _ =>
      repeat' first
        | exact forall_mem_nil _
        | refine forall_mem_cons.mpr ⟨trivial, ?_⟩
        | refine forall_mem_append.mpr ⟨?_, ?_⟩
        | split
  | opening h =>
    cases h with
    | countPages admitted =>
      obtain ⟨hfirst, hlast, -⟩ := admittedSpan_bounds admitted
      exact forall_mem_singleton.mpr ⟨hfirst, hlast⟩
    | _ =>
      repeat' first
        | exact forall_mem_nil _
        | refine forall_mem_cons.mpr ⟨trivial, ?_⟩
        | refine forall_mem_append.mpr ⟨?_, ?_⟩
        | exact forall_mem_map.mpr fun _ _ => trivial
        | split
  | schedule h =>
    cases h with
    | cancelRest _ _ _ _ left => exact forall_mem_singleton.mpr left
    | _ =>
      repeat' first
        | exact forall_mem_nil _
        | refine forall_mem_cons.mpr ⟨trivial, ?_⟩
        | split
  | stage h =>
    cases h with
    | onPageReturns delivery =>
      cases delivery <;>
      repeat' first
        | exact forall_mem_nil _
        | refine forall_mem_cons.mpr ⟨trivial, ?_⟩
    | _ =>
      repeat' first
        | exact forall_mem_nil _
        | refine forall_mem_cons.mpr ⟨trivial, ?_⟩
        | refine forall_mem_append.mpr ⟨?_, ?_⟩
        | exact forall_mem_map.mpr fun _ _ => trivial
  | stop h =>
    cases h with
    | stopReschedules => exact forall_mem_singleton.mpr rfl
    | joinWorkers => exact forall_mem_singleton.mpr rfl
    | abandonRequests => exact forall_mem_map.mpr fun _ _ => legal
    | failIfOpening =>
      split_ifs
      · exact forall_mem_singleton.mpr legal
      · exact forall_mem_nil _
    | stop =>
      exact forall_mem_append.mpr ⟨forall_mem_map.mpr fun _ _ => trivial,
        forall_mem_singleton.mpr rfl⟩
    | failOpening =>
      exact forall_mem_append.mpr ⟨forall_mem_map.mpr fun _ _ => legal,
        forall_mem_singleton.mpr legal⟩
    | _ =>
      exact forall_mem_append.mpr ⟨forall_mem_map.mpr fun _ _ => trivial,
        forall_mem_singleton.mpr legal⟩

/-! ### The callers and the destructor -/

/-- The actions of callers and of the destructor. -/
def Op.isExternal : Op → Bool
  | .caller | .submitPush _ | .cancel _ .wake | .cancel _ .shutdown | .cancel _ .abandon
  | .readSource _ | .fail _ _ .shutdown | .fail _ _ .abandon | .releaseSlots _ _
  | .addSlots _ _ | .queueReschedule _ | .setPending _ | .pushPending _ | .finishRequest _
  | .retireRequest _ | .callOnFinish _ | .stop | .stopReschedules | .closeRender
  | .closeInference | .closeAssembly | .failOpening | .failIfOpening _ | .joinWorkers
  | .abandonRequests => true
  | _ => false

/-- Callers and the destructor do no work on pages. -/
theorem Exec.external {c : Pool} {op : Op} {s' : State} {next : List Op}
    (h : Exec c op s' next) (external : op.isExternal = true) :
  ∀ op' ∈ next, op'.isExternal = true
  := by
  cases h with
  | caller h =>
    cases h <;>
    repeat' first
      | exact forall_mem_nil _
      | refine forall_mem_cons.mpr ⟨rfl, ?_⟩
  | request h =>
    cases h with
    | @cancel d next =>
      refine forall_mem_cons.mpr ⟨rfl, ?_⟩
      cases next with
      | complete | settleOpen => cases external
      | _ =>
        repeat' first
          | exact forall_mem_nil _
          | refine forall_mem_cons.mpr ⟨rfl, ?_⟩
    | @fail d value next =>
      refine forall_mem_singleton.mpr ?_
      cases next with
      | shutdown | abandon => rfl
      | _ => cases external
    | completePage => cases external
    | countPage => cases external
    | _ =>
      repeat' first
        | exact forall_mem_nil _
        | refine forall_mem_cons.mpr ⟨rfl, ?_⟩
  | opening h => cases h <;> cases external
  | schedule h => cases h <;> cases external
  | stage h => cases h <;> cases external
  | stop h =>
    cases h <;>
    repeat' first
      | exact forall_mem_nil _
      | refine forall_mem_cons.mpr ⟨rfl, ?_⟩
      | refine forall_mem_append.mpr ⟨?_, ?_⟩
      | exact forall_mem_map.mpr fun _ _ => rfl
      | split

/-! ### The loops of the workers -/

/-- Nothing but the head of a loop starts a loop. -/
theorem Exec.quiet {c : Pool} {s' : State} (h : Exec c op s' next) (hop : op.isLoop = false) :
  ∀ o ∈ next, o.isLoop = false
  := by
  cases h with
  | caller h =>
    cases h <;>
    repeat' first
      | exact forall_mem_nil _
      | refine forall_mem_cons.mpr ⟨rfl, ?_⟩
  | request h =>
    cases h with
    | @cancel d next =>
      refine forall_mem_cons.mpr ⟨rfl, ?_⟩
      cases next <;>
      repeat' first
        | exact forall_mem_nil _
        | refine forall_mem_cons.mpr ⟨rfl, ?_⟩
    | _ =>
      repeat' first
        | exact forall_mem_nil _
        | refine forall_mem_cons.mpr ⟨rfl, ?_⟩
        | refine forall_mem_append.mpr ⟨?_, ?_⟩
        | split
  | opening h =>
    cases h with
    | popDocument | documentsDone => cases hop
    | _ =>
      repeat' first
        | exact forall_mem_nil _
        | refine forall_mem_cons.mpr ⟨rfl, ?_⟩
        | split
  | schedule h =>
    cases h with
    | popReschedule | reschedulerDone => cases hop
    | _ =>
      repeat' first
        | exact forall_mem_nil _
        | refine forall_mem_cons.mpr ⟨rfl, ?_⟩
        | split
  | stage h =>
    cases h with
    | popRender | renderDone | popInference | inferenceDone | popAssembly | assemblyDone => cases hop
    | onPageReturns delivery =>
      cases delivery <;>
      repeat' first
        | exact forall_mem_nil _
        | refine forall_mem_cons.mpr ⟨rfl, ?_⟩
    | _ =>
      repeat' first
        | exact forall_mem_nil _
        | refine forall_mem_cons.mpr ⟨rfl, ?_⟩
  | stop h =>
    cases h <;>
    repeat' first
      | exact forall_mem_nil _
      | refine forall_mem_cons.mpr ⟨rfl, ?_⟩
      | refine forall_mem_append.mpr ⟨?_, ?_⟩
      | exact forall_mem_map.mpr fun _ _ => rfl
      | split

/-- Who waited for room is woken before what was taken is worked on. -/
theorem quiet_woken (waiters : List RequestId) (hop : op.isLoop = false) :
  ∀ o ∈ waiters.map .queueReschedule ++ [op], o.isLoop = false
  := forall_mem_append.mpr
    ⟨forall_mem_map.mpr fun _ _ => rfl, forall_mem_singleton.mpr hop⟩

/-- A loop goes round once more, or ends with its queue drained. -/
theorem Exec.again {c : Pool} {s' : State} (h : Exec c op s' next) (hop : op.isLoop = true) :
  (next = [] ∧ s'.Drained op) ∨ ∃ work, next = work ++ [op] ∧ ∀ o ∈ work, o.isLoop = false
  := by
  cases h with
  | caller h =>
    cases h with
    | _ => cases hop
  | request h =>
    cases h with
    | _ => cases hop
  | opening h =>
    cases h with
    | @popDocument d waiters _ popped =>
      exact .inr ⟨waiters.map .queueReschedule ++ [.openDocument d],
        (append_assoc _ [_] [_]).symm, quiet_woken waiters rfl⟩
    | documentsDone closed empty => exact Or.inl ⟨rfl, closed, empty⟩
    | _ => cases hop
  | schedule h =>
    cases h with
    | @popReschedule d =>
      exact .inr ⟨[.clearPending d], rfl, forall_mem_singleton.mpr rfl⟩
    | reschedulerDone stopping => exact Or.inl ⟨rfl, stopping⟩
    | _ => cases hop
  | stage h =>
    cases h with
    | @popRender page waiters _ popped =>
      exact .inr ⟨waiters.map .queueReschedule ++ [.renderPage page],
        (append_assoc _ [_] [_]).symm, quiet_woken waiters rfl⟩
    | renderDone closed empty => exact Or.inl ⟨rfl, closed, empty⟩
    | @popInference job waiters _ popped =>
      exact .inr ⟨waiters.map .queueReschedule ++ [.recognizePage job],
        (append_assoc _ [_] [_]).symm, quiet_woken waiters rfl⟩
    | inferenceDone closed empty => exact Or.inl ⟨rfl, closed, empty⟩
    | @popAssembly page waiters _ popped =>
      exact .inr ⟨waiters.map .queueReschedule ++ [.assemblePage page],
        (append_assoc _ [_] [_]).symm, quiet_woken waiters rfl⟩
    | assemblyDone closed empty => exact Or.inl ⟨rfl, closed, empty⟩
    | _ => cases hop
  | stop h =>
    cases h with
    | _ => cases hop

/-- A loop goes round once more, or ends with its queue drained; nothing else starts a
loop. -/
theorem Exec.loops {c : Pool} {s' : State} (h : Exec c op s' next) :
  if op.isLoop then
    (next = [] ∧ s'.Drained op) ∨ ∃ work, next = work ++ [op] ∧ ∀ o ∈ work, o.isLoop = false
  else ∀ o ∈ next, o.isLoop = false
  := by
  cases hop : op.isLoop with
  | true => exact h.again hop
  | false => exact h.quiet hop

/-! ### The flags of a shutdown -/

/-- What the flags of a shutdown say of each other, and of the registry. -/
structure State.Sequenced (s : State) : Prop where
  joined : s.joined = true → s.stopping = true
  stopping : s.stopping = true → s.documents.closed = true ∧ s.pendingReschedules = []
  render : s.render.closed = true → s.stopping = true
  active : ∀ d ∈ s.activeRequests, d < s.nextSerial
  admitted : ∀ d, (s.requests d).admitted = true → d < s.nextSerial

/-- Changing a request in anything but its admission keeps the flags in sequence. -/
theorem State.Sequenced.setRequest {s : State} (h : s.Sequenced) (d : RequestId)
    (f : Request → Request)
    (keeps : (f (s.requests d)).admitted = (s.requests d).admitted := by rfl) :
  (s.setRequest d f).Sequenced
  := by
  refine ⟨h.joined, h.stopping, h.render, h.active, fun e he => h.admitted e ?_⟩
  rw [setRequest_requests] at he
  split_ifs at he with hed
  · rw [keeps] at he
    rw [hed]
    apply he
  · apply he

/-- Every action that may run keeps the flags in sequence. -/
theorem Exec.sequenced {c : Pool} {op : Op} {s' : State} {next : List Op}
    (h : Exec c op s' next) (legal : c.shared.Legal op) (sequenced : c.shared.Sequenced) :
  s'.Sequenced
  := by
  have ⟨joined, stopping, render, active, admitted⟩ := sequenced
  cases h with
  | caller h =>
    cases h with
    | submitSaturated => exact ⟨joined, stopping, render, active, admitted⟩
    | ticketCancel | ticketRelease => exact sequenced
    | submit tuning room =>
      refine ⟨joined, stopping, render, fun d hd => ?_, fun d hd => ?_⟩
      · obtain rfl | hd := mem_cons.mp hd
        · apply Nat.lt_succ_self
        · apply Nat.lt_succ_of_lt (active d hd)
      · simp only [register, Function.update_apply] at hd ⊢
        split_ifs at hd with hds
        · cases hd
        · apply Nat.lt_succ_of_lt (admitted d hd)
    | @submitPush d documents pushed =>
      obtain ⟨-, -, opened, -⟩ := tryPush_eq_true pushed
      have running : c.shared.stopping = false := by
        by_contra hs
        simp_all
      refine ⟨joined, ?_, render, active, fun e he => ?_⟩
      · simp [running]
      · rw [setRequest_requests] at he
        split_ifs at he with hed
        · rw [hed]
          exact legal
        · apply admitted e he
    | submitRefused refused =>
      obtain ⟨-, closed, -⟩ := tryPush_eq_false refused
      refine ⟨joined, fun hs => ?_, render, fun d hd => ?_, admitted⟩
      · obtain ⟨hclosed, hpending⟩ := stopping hs
        exact ⟨closed.trans hclosed, hpending⟩
      · apply active d (mem_of_mem_filter hd)
  | request h =>
    cases h with
    | cancel | fail | addSlots | setPending | finishRequest | callOnFinish | countPage =>
      exact sequenced.setRequest _ _
    | completePage =>
      exact State.Sequenced.setRequest (s := c.shared.setMetrics _)
        ⟨joined, stopping, render, active, admitted⟩ _ _
    | pushPending running =>
      refine ⟨joined, fun hs => ?_, render, active, admitted⟩
      simp_all
    | retireRequest =>
      refine ⟨joined, stopping, render, fun d hd => ?_, admitted⟩
      apply active d (mem_of_mem_filter hd)
    | _ => exact sequenced
  | opening h =>
    cases h with
    | popDocument popped =>
      obtain ⟨-, -, -, closed, -⟩ := pop_eq_some popped
      refine ⟨joined, fun hs => ?_, render, active, admitted⟩
      obtain ⟨hclosed, hpending⟩ := stopping hs
      exact ⟨closed.trans hclosed, hpending⟩
    | openSource | publishPages | callOnDocument => exact sequenced.setRequest _ _
    | _ => exact sequenced
  | schedule h =>
    cases h with
    | popReschedule running front =>
      refine ⟨joined, fun hs => ?_, render, active, admitted⟩
      simp_all
    | clearPending | cancelRest | schedulePages | scheduled => exact sequenced.setRequest _ _
    | schedulePage slots left pushed =>
      obtain ⟨-, -, opened, opened', -⟩ := tryPush_eq_true pushed
      apply State.Sequenced.setRequest
      · refine ⟨joined, stopping, fun hs => render ?_, active, admitted⟩
        simp_all
      · rfl
    | renderRefused slots left refused =>
      obtain ⟨-, closed, -⟩ := tryPush_eq_false refused
      apply State.Sequenced.setRequest
      · exact ⟨joined, stopping, fun hs => render (closed.symm.trans hs), active, admitted⟩
      · rfl
    | countCancelled =>
      exact State.Sequenced.setRequest (s := c.shared.setMetrics _)
        ⟨joined, stopping, render, active, admitted⟩ _ _
    | _ => exact sequenced
  | stage h =>
    cases h with
    | popRender popped =>
      obtain ⟨-, -, -, closed, -⟩ := pop_eq_some popped
      exact ⟨joined, stopping, fun hs => render (closed.symm.trans hs), active, admitted⟩
    | callOnPage => exact sequenced.setRequest _ _
    | _ => exact ⟨joined, stopping, render, active, admitted⟩
  | stop h =>
    cases h with
    | stop => exact ⟨joined, fun hs => ⟨rfl, (stopping hs).2⟩, render, active, admitted⟩
    | stopReschedules =>
      exact ⟨fun _ => rfl, fun _ => ⟨legal, rfl⟩, fun _ => rfl, active, admitted⟩
    | closeRender => exact ⟨joined, stopping, fun _ => legal, active, admitted⟩
    | joinWorkers => exact ⟨fun _ => legal, stopping, render, active, admitted⟩
    | _ => exact ⟨joined, stopping, render, active, admitted⟩

/-! ### Reachable schedulers -/

/-- What the threads of a reachable scheduler hold. -/
structure Pool.Orderly (c : Pool) : Prop where
  sequenced : c.shared.Sequenced
  legal : ∀ op ∈ c.ops, c.shared.Legal op
  external : ∀ thread ∈ c.threads, thread.role.loop = none →
    ∀ op ∈ thread.code, op.isExternal = true
  looping : ∀ thread ∈ c.threads, ∀ op, thread.role.loop = some op →
    (thread.code = [] ∧ c.shared.Drained op) ∨
      ∃ work, thread.code = work ++ [op] ∧ ∀ o ∈ work, o.isLoop = false
  staffed : ∀ role op, Role.loop role = some op → ∃ thread ∈ c.threads, thread.role = role

/-- The head of a worker's loop is a loop head. -/
theorem Role.isLoop_loop {role : Role} (h : role.loop = some op) :
  op.isLoop = true
  := by
  cases role <;> simp [Role.loop] at h <;> subst h <;> rfl

/-- The head of a loop relies on nothing. -/
theorem State.legal_of_isLoop {s : State} (h : op.isLoop = true) :
  s.Legal op
  := by
  cases op <;> trivial

/-- The roles without a loop are those `stop` does not join. -/
theorem Role.loop_eq_none {role : Role} :
  role.loop = none ↔ role.isWorker = false
  := by
  cases role <;> simp [Role.loop, Role.isWorker]

/-- A fresh worker is about to enter its loop. -/
theorem Pool.start_thread {options : Options} {regionDetector : Bool} {callers : ℕ}
    {thread : ThreadPool.Thread Role Op}
    (h : thread ∈ (Pool.start options regionDetector callers).threads) :
  (∃ op, thread.role.loop = some op ∧ thread.code = [op]) ∨
    thread.role.loop = none ∧ (thread.code = [.caller] ∨ thread.code = [.stop])
  := by
  simp only [Pool.start, mem_append, mem_replicate, mem_cons] at h
  obtain (((((h | h | h) | h) | h) | h) | h | h) := h
  all_goals first | (obtain ⟨-, rfl⟩ := h; simp [Role.loop]) | simp_all

/-- A fresh scheduler is orderly. -/
theorem Pool.Orderly.start (options : Options) (regionDetector : Bool) (callers : ℕ) :
  (Pool.start options regionDetector callers).Orderly
  := by
  constructor
  · constructor <;> simp [Pool.start, State.start]
  · intro op hop
    obtain ⟨thread, hthread, hop⟩ := mem_flatMap.mp hop
    obtain ⟨head, hloop, hcode⟩ | ⟨-, hcode | hcode⟩ := Pool.start_thread hthread
    · rw [hcode, mem_singleton] at hop
      rw [hop]
      exact State.legal_of_isLoop (Role.isLoop_loop hloop)
    · simp_all [State.Legal]
    · simp_all [State.Legal]
  · intro thread hthread hnone op hop
    obtain ⟨head, hloop, -⟩ | ⟨-, hcode | hcode⟩ := Pool.start_thread hthread
    · simp_all
    · simp_all [Op.isExternal]
    · simp_all [Op.isExternal]
  · intro thread hthread op hloop
    obtain ⟨head, hloop', hcode⟩ | ⟨hnone, -⟩ := Pool.start_thread hthread
    · apply Or.inr
      use []
      simp_all
    · simp_all
  · obtain ⟨-, -, -, -, hopen, hrender, hinference, hassembly, -, -⟩ := options.positive
    intro role op hloop
    cases role with
    | opener => exact ⟨⟨.opener, [.popDocument]⟩, by simp [Pool.start, hopen.ne'], rfl⟩
    | rescheduler => exact ⟨⟨.rescheduler, [.popReschedule]⟩, by simp [Pool.start], rfl⟩
    | renderWorker =>
      exact ⟨⟨.renderWorker, [.popRender]⟩, by simp [Pool.start, hrender.ne'], rfl⟩
    | inferenceWorker =>
      exact ⟨⟨.inferenceWorker, [.popInference]⟩, by simp [Pool.start, hinference.ne'], rfl⟩
    | assemblyWorker =>
      exact ⟨⟨.assemblyWorker, [.popAssembly]⟩, by simp [Pool.start, hassembly.ne'], rfl⟩
    | caller | destructor => cases hloop

/-- A step keeps a scheduler orderly. -/
theorem Pool.Orderly.step {c c' : Pool} {op : Op} (h : c.Orderly) (step : Step c op c') :
  c'.Orderly
  := by
  obtain ⟨next, rest, runs, hops, hops'⟩ := step.ops_perm
  have later := runs.precedes
  constructor
  · apply runs.sequenced (h.legal op step.op_mem) h.sequenced
  · intro o ho
    rw [hops'.mem_iff, mem_append] at ho
    obtain ho | ho := ho
    · apply runs.legal (h.legal op step.op_mem) o ho
    · have hmem : o ∈ c.ops := by
        rw [hops.mem_iff]
        exact mem_cons_of_mem _ ho
      apply (h.legal o hmem).later later
  · obtain ⟨role, code, next, hrun, runs, hthreads, -⟩ := step.thread
    intro thread hthread hnone o ho
    obtain hthread | rfl := hthreads thread hthread
    · apply h.external thread hthread hnone o ho
    · have external := h.external _ hrun hnone
      obtain ho | ho := mem_append.mp ho
      · apply runs.external (external op mem_cons_self) o ho
      · apply external o (mem_cons_of_mem _ ho)
  · obtain ⟨role, code, next, hrun, runs, hthreads, -⟩ := step.thread
    intro thread hthread head hloop
    obtain hthread | rfl := hthreads thread hthread
    · obtain ⟨hcode, drained⟩ | hwork := h.looping thread hthread head hloop
      · exact Or.inl ⟨hcode, later.drained head drained⟩
      · exact Or.inr hwork
    · obtain ⟨hcode, -⟩ | ⟨work, hcode, hwork⟩ := h.looping _ hrun head hloop
      · cases hcode
      have loops := runs.loops
      cases work with
      | nil =>
        -- the thread stands at the head of its loop
        obtain ⟨rfl, rfl⟩ : op = head ∧ code = [] := by simpa using hcode
        rw [if_pos (Role.isLoop_loop hloop)] at loops
        simpa using loops
      | cons first work =>
        obtain ⟨rfl, rfl⟩ : op = first ∧ code = work ++ [head] := by simpa using hcode
        rw [if_neg (by simp [hwork])] at loops
        apply Or.inr
        use next ++ work
        simp_all [or_imp, forall_and]
  · obtain ⟨role, code, next, -, -, -, hroles⟩ := step.thread
    intro role op hloop
    obtain ⟨thread, hthread, rfl⟩ := h.staffed role op hloop
    apply hroles thread hthread

/-- Every reachable scheduler is orderly. -/
theorem Reachable.orderly {c : Pool} (h : Reachable c) :
  c.Orderly
  := by
  obtain ⟨options, regionDetector, callers, run⟩ := h
  exact run.invariant (.start options regionDetector callers) fun h _ step => h.step step

/-- Once every worker has returned, every loop has drained its queue, and only callers and
the destructor have anything left to do. -/
theorem Pool.Orderly.exited {c : Pool} (h : c.Orderly) (exited : c.exited) :
  (∀ role op, Role.loop role = some op → c.shared.Drained op) ∧
    ∀ op ∈ c.ops, op.isExternal = true
  := by
  constructor
  · intro role op hloop
    obtain ⟨thread, hthread, rfl⟩ := h.staffed role op hloop
    have hworker : thread.role.isWorker = true := by
      by_contra hworker
      rw [Bool.not_eq_true, ← Role.loop_eq_none] at hworker
      simp_all
    obtain ⟨-, drained⟩ | ⟨work, hcode, -⟩ := h.looping thread hthread op hloop
    · apply drained
    · simp [exited thread hthread hworker] at hcode
  · intro op hop
    obtain ⟨thread, hthread, hop⟩ := mem_flatMap.mp hop
    cases hworker : thread.role.isWorker with
    | true => simp [exited thread hthread hworker] at hop
    | false => apply h.external thread hthread (Role.loop_eq_none.mpr hworker) op hop

end GRParse.Scheduler
