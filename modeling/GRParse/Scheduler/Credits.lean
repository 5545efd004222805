import GRParse.Scheduler.Finish

/-!
# Page credits

`schedule_pages` takes a credit for every page it queues, and `release_slots` returns credits.
An observer counts both.  The credits that are out and those that are left are never more than
the page window, so if the caller returns no more credits than it got pages, no more than a
window of pages is under way or was delivered without a credit.
-/

namespace GRParse.Scheduler

open List Function Pool BoundedQueue State

/-! ### The pages an action is about -/

/-- The page, if it is of the given document. -/
def PageJob.of (page : PageJob) (d : RequestId) : Multiset ℤ :=
  if page.request = d then {page.pageNumber} else 0

/-- The page of a document that a worker has taken from a queue and not delivered yet. -/
def Op.undelivered (d : RequestId) : Op → Multiset ℤ
  | .renderPage page | .readPage page | .pageRendered page _ | .pushInference page _
  | .pushAssembly page | .recognizePage ⟨page, _⟩ | .runRecognition ⟨page, _⟩
  | .assemblePage page | .callOnPage page => page.of d
  | _ => 0

/-- The page of a document that is with a worker. -/
def Op.underWay (d : RequestId) : Op → Multiset ℤ
  | .returnOnPage page | .completePage page _ => page.of d
  | .fail e _ (.complete pageNumber _) | .cancel e (.complete pageNumber _) =>
    PageJob.of ⟨e, pageNumber⟩ d
  | op => op.undelivered d

/-- The credits of a document that are about to be returned. -/
def Op.crediting (d : RequestId) : Op → ℕ
  | .addSlots e slots => if e = d then slots else 0
  | _ => 0

/-- The pages of a document in the queues. -/
def State.queued (s : State) (d : RequestId) : Multiset ℤ :=
  (s.render.queue.map (·.of d)).sum + (s.inference.queue.map (·.page.of d)).sum +
    (s.assembly.queue.map (·.of d)).sum

/-- The pages of a document that are in a queue or with a worker. -/
def Pool.underWay (c : Pool) (d : RequestId) : Multiset ℤ :=
  (c.ops.map (Op.underWay d)).sum + c.shared.queued d

/-- The pages of a document that are delivered, in that order. -/
def Request.delivered (r : Request) : List ℤ :=
  r.callbacks.filterMap fun
    | .onPage pageNumber => some pageNumber
    | _ => none

/-! ### The observer -/

/-- What an observer notes of the page credits: the pages of each document that
`schedule_pages` has queued, the credits that callers and deliveries have asked
`release_slots` to return, and those that it has returned. -/
structure Tally where
  scheduled : RequestId → List ℤ := fun _ => []
  released : RequestId → ℕ := fun _ => 0
  credited : RequestId → ℕ := fun _ => 0

/-- What the observer notes of a step. -/
def Tally.note (t : Tally) (c : Pool) (op : Op) (c' : Pool) : Tally :=
  match op with
  | .scheduleLoop d =>
    let page := (c.shared.requests d).nextPageToSchedule
    if page < (c'.shared.requests d).nextPageToSchedule then
      { t with scheduled := Function.update t.scheduled d (t.scheduled d ++ [page]) }
    else t
  | .releaseSlots d slots =>
    { t with released := Function.update t.released d (t.released d + slots) }
  | .addSlots d slots =>
    { t with credited := Function.update t.credited d (t.credited d + slots) }
  | _ => t

/-- A scheduler that is reachable from a fresh one, with the tally of its run. -/
def Tallied (c : Pool) (t : Tally) : Prop :=
  ∃ options regionDetector callers,
    ThreadPool.Observes Exec Tally.note (Pool.start options regionDetector callers) {} c t

/-! ### What a step does to the credits of a document -/

/-- The credits and the pages of a request stay, but for pages that are never scheduled. -/
structure Request.SameCredit (r r' : Request) : Prop where
  slots : r'.availableSlots = r.availableSlots
  window : r'.pageWindow = r.pageWindow
  total : r'.totalPages = r.totalPages
  next : r.nextPageToSchedule ≤ r'.nextPageToSchedule
  delivered : r'.delivered = r.delivered

theorem Request.SameCredit.refl (r : Request) :
  r.SameCredit r
  := ⟨rfl, rfl, rfl, le_rfl, rfl⟩

/-- A change of the request of one document keeps the credits of all. -/
theorem SameCredit.setRequest {s t : State} (requests : t.requests = s.requests) {e : RequestId}
    {f : Request → Request} (h : (s.requests e).SameCredit (f (s.requests e))) (d : RequestId) :
  (s.requests d).SameCredit ((t.setRequest e f).requests d)
  := by
  rw [setRequest_requests, requests]
  split
  next heq =>
    rw [heq]
    exact h
  next => exact .refl _

/-- What an action does to the credits and the pages of a document: nothing, or one of six
things. -/
inductive Flow (s : State) (op : Op) (s' : State) (next : List Op) (d : RequestId) : Prop where
  | calm (same : (s.requests d).SameCredit (s'.requests d))
      (undelivered : (next.map (Op.undelivered d)).sum + s'.queued d ≤
        op.undelivered d + s.queued d)
      (underWay : (next.map (Op.underWay d)).sum + s'.queued d ≤ op.underWay d + s.queued d)
      (crediting : (next.map (Op.crediting d)).sum = 0)
      (unnoted : ∀ t c c', c.shared = s → c'.shared = s' →
        (Tally.note t c op c').scheduled d = t.scheduled d ∧
        (Tally.note t c op c').released d = t.released d ∧
        (Tally.note t c op c').credited d = t.credited d)
  | release (slots : ℕ) (called : op = .releaseSlots d slots) (same : s' = s)
      (pages : (next.map (Op.undelivered d)).sum = 0 ∧ (next.map (Op.underWay d)).sum = 0)
      (crediting : (next.map (Op.crediting d)).sum ≤ slots)
  | credit (slots : ℕ) (called : op = .addSlots d slots)
      (added : s' = s.setRequest d fun r =>
        { r with availableSlots := min r.pageWindow (r.availableSlots + slots) })
      (woken : next = [.queueReschedule d])
  | schedule (called : op = .scheduleLoop d) (slots : 0 < (s.requests d).availableSlots)
      (taken : s'.requests d =
        { s.requests d with
          nextPageToSchedule := (s.requests d).nextPageToSchedule + 1
          availableSlots := (s.requests d).availableSlots - 1 })
      (queued : s'.queued d = (s.requests d).nextPageToSchedule ::ₘ s.queued d)
      (looping : next = [.scheduleLoop d])
  | deliver (pageNumber : ℤ) (called : op = .callOnPage ⟨d, pageNumber⟩)
      (delivered : s' = s.setRequest d fun r =>
        { r with callbacks := r.callbacks ++ [.onPage pageNumber] })
      (returning : next = [.returnOnPage ⟨d, pageNumber⟩])
  | publish (first last : ℤ) (called : op = .publishPages d first last)
      (published : s' = s.setRequest d fun r =>
        { r with
          remainingPages := last - first + 1
          totalPages := last
          firstPage := first
          nextPageToSchedule := first
          availableSlots := r.pageWindow })
      (announcing : next = [.callOnDocument d (last - first + 1)])
  | submit (tuning : OcrTuning) (new : d = s.nextSerial) (called : op = .caller)
      (registered : s' = s.register tuning) (queueing : next = [.submitPush d, .caller])

section Flow

variable {s s' t : State} {op : Op} {next : List Op} (d : RequestId)

/-- The request of one document changes in other respects. -/
theorem Flow.own {e : RequestId} {f : Request → Request} (requests : t.requests = s.requests)
    (queued : t.queued d = s.queued d) (same : (s.requests e).SameCredit (f (s.requests e)))
    (undelivered : (next.map (Op.undelivered d)).sum ≤ op.undelivered d)
    (underWay : (next.map (Op.underWay d)).sum ≤ op.underWay d)
    (crediting : (next.map (Op.crediting d)).sum = 0)
    (unnoted : ∀ (t : Tally) c c', t.note c op c' = t) :
  Flow s op (t.setRequest e f) next d
  := by
  have hqueued : (t.setRequest e f).queued d = s.queued d := queued
  refine .calm (SameCredit.setRequest requests same d) ?_ ?_ crediting fun t c c' _ _ => ?_
  · rw [hqueued]
    exact add_le_add_left undelivered _
  · rw [hqueued]
    exact add_le_add_left underWay _
  · rw [unnoted]
    exact ⟨rfl, rfl, rfl⟩

/-- The requests stay. -/
theorem Flow.idle (requests : s'.requests = s.requests)
    (undelivered : (next.map (Op.undelivered d)).sum + s'.queued d ≤
      op.undelivered d + s.queued d)
    (underWay : (next.map (Op.underWay d)).sum + s'.queued d ≤ op.underWay d + s.queued d)
    (crediting : (next.map (Op.crediting d)).sum = 0)
    (unnoted : ∀ (t : Tally) c c', t.note c op c' = t) :
  Flow s op s' next d
  := by
  refine .calm ?_ undelivered underWay crediting fun t c c' _ _ => ?_
  · rw [requests]
    exact .refl _
  · rw [unnoted]
    exact ⟨rfl, rfl, rfl⟩

theorem delivered_append (r : Request) (call : Callback)
    (h : ∀ pageNumber, call ≠ .onPage pageNumber) :
  Request.delivered { r with callbacks := r.callbacks ++ [call] } = r.delivered
  := by
  cases call with
  | onPage pageNumber => exact absurd rfl (h pageNumber)
  | onDocument | onFinish => simp [Request.delivered]

theorem CallerExec.flow (h : CallerExec s op s' next) :
  Flow s op s' next d
  := by
  cases h with
  | submitSaturated => exact .idle d rfl le_rfl le_rfl rfl fun _ _ _ => rfl
  | submit tuning room =>
    by_cases hd : d = s.nextSerial
    · subst hd
      exact .submit tuning rfl rfl rfl rfl
    · refine .calm ?_ le_rfl le_rfl rfl fun _ _ _ _ _ => ⟨rfl, rfl, rfl⟩
      simp only [register, update_of_ne hd]
      exact .refl _
  | ticketCancel e => exact .idle d rfl le_rfl le_rfl rfl fun _ _ _ => rfl
  | ticketRelease e slots => exact .idle d rfl le_rfl le_rfl rfl fun _ _ _ => rfl
  | submitPush pushed =>
    exact .own d rfl rfl ⟨rfl, rfl, rfl, le_rfl, rfl⟩ le_rfl le_rfl rfl fun _ _ _ => rfl
  | submitRefused refused => exact .idle d rfl le_rfl le_rfl rfl fun _ _ _ => rfl

theorem RequestExec.flow (h : RequestExec s op s' next) :
  Flow s op s' next d
  := by
  cases h with
  | @cancel e after =>
    refine .own d rfl rfl ⟨rfl, rfl, rfl, le_rfl, rfl⟩ ?_ ?_ ?_ fun _ _ _ => rfl
    · cases after <;> exact le_rfl
    · cases after <;> simp [AfterCancel.code, Op.underWay, Op.undelivered]
    · cases after <;> rfl
  | @fail e value after =>
    refine .own d rfl rfl ⟨rfl, rfl, rfl, le_rfl, rfl⟩ ?_ ?_ ?_ fun _ _ _ => rfl
    · cases after <;> exact le_rfl
    · cases after <;> simp [Op.underWay, Op.undelivered]
    · rfl
  | @releaseNothing e slots nothing =>
    by_cases he : e = d
    · subst he
      exact .release slots rfl rfl ⟨rfl, rfl⟩ (Nat.zero_le _)
    · refine .calm (.refl _) le_rfl le_rfl rfl fun t c c' _ _ => ⟨rfl, ?_, rfl⟩
      exact update_of_ne (Ne.symm he) ..
  | @releaseSlots e slots =>
    by_cases he : e = d
    · subst he
      exact .release slots rfl rfl ⟨rfl, rfl⟩ (by simp [Op.crediting])
    · refine .calm (.refl _) le_rfl le_rfl (by simp [Op.crediting, he])
        fun t c c' _ _ => ⟨rfl, ?_, rfl⟩
      exact update_of_ne (Ne.symm he) ..
  | @addSlots e slots =>
    by_cases he : e = d
    · subst he
      exact .credit slots rfl rfl rfl
    · refine .calm ?_ le_rfl le_rfl rfl fun t c c' _ _ => ⟨rfl, rfl, ?_⟩
      · rw [setRequest_requests, if_neg (Ne.symm he)]
        exact .refl _
      · exact update_of_ne (Ne.symm he) ..
  | setPending idle =>
    exact .own d rfl rfl ⟨rfl, rfl, rfl, le_rfl, rfl⟩ le_rfl le_rfl rfl fun _ _ _ => rfl
  | finishRequest unfinished =>
    exact .own d rfl rfl ⟨rfl, rfl, rfl, le_rfl, rfl⟩ le_rfl le_rfl rfl fun _ _ _ => rfl
  | callOnFinish =>
    refine .own d rfl rfl ⟨rfl, rfl, rfl, le_rfl, ?_⟩ le_rfl le_rfl rfl fun _ _ _ => rfl
    exact delivered_append _ _ fun _ h => by cases h
  | @completePage page outcome =>
    refine .own d rfl rfl ⟨rfl, rfl, rfl, le_rfl, rfl⟩ ?_ ?_ ?_ fun _ _ _ => rfl
    · split <;> exact le_rfl
    · split <;> simp [Op.underWay, Op.undelivered]
    · split <;> rfl
  | @countPage page =>
    refine .own d rfl rfl ⟨rfl, rfl, rfl, le_rfl, rfl⟩ ?_ ?_ ?_ fun _ _ _ => rfl
    · split <;> exact le_rfl
    · split <;> exact le_rfl
    · split <;> rfl
  | _ => exact .idle d rfl le_rfl le_rfl rfl fun _ _ _ => rfl

/-- Wakeups hold no pages. -/
@[simp]
theorem sum_undelivered_wake (waiters : List RequestId) :
  ((waiters.map Op.queueReschedule).map (Op.undelivered d)).sum = 0
  := by
  rw [map_map]
  apply sum_eq_zero
  simp [Op.undelivered]

@[simp]
theorem sum_underWay_wake (waiters : List RequestId) :
  ((waiters.map Op.queueReschedule).map (Op.underWay d)).sum = 0
  := by
  rw [map_map]
  apply sum_eq_zero
  simp [Op.underWay, Op.undelivered]

@[simp]
theorem sum_crediting_wake (waiters : List RequestId) :
  ((waiters.map Op.queueReschedule).map (Op.crediting d)).sum = 0
  := by
  rw [map_map]
  apply sum_eq_zero
  simp [Op.crediting]

/-- The waiters of a queue are woken before an action. -/
theorem Flow.wake {waiters : List RequestId} (requests : s'.requests = s.requests)
    (undelivered : (next.map (Op.undelivered d)).sum + s'.queued d ≤
      op.undelivered d + s.queued d)
    (underWay : (next.map (Op.underWay d)).sum + s'.queued d ≤ op.underWay d + s.queued d)
    (crediting : (next.map (Op.crediting d)).sum = 0)
    (unnoted : ∀ (t : Tally) c c', t.note c op c' = t) :
  Flow s op s' (waiters.map .queueReschedule ++ next) d
  := by
  apply Flow.idle d requests
  · rw [map_append, sum_append, sum_undelivered_wake, zero_add]
    exact undelivered
  · rw [map_append, sum_append, sum_underWay_wake, zero_add]
    exact underWay
  · rw [map_append, sum_append, sum_crediting_wake, zero_add]
    exact crediting
  · exact unnoted

theorem OpenExec.flow (h : OpenExec s op s' next) :
  Flow s op s' next d
  := by
  cases h with
  | popDocument popped => exact .wake d rfl le_rfl le_rfl rfl fun _ _ _ => rfl
  | openSource unlocked =>
    exact .own d rfl rfl ⟨rfl, rfl, rfl, le_rfl, rfl⟩ le_rfl le_rfl rfl fun _ _ _ => rfl
  | @publishPages e first last unlocked =>
    by_cases he : e = d
    · subst he
      exact .publish first last rfl rfl rfl
    · apply Flow.calm _ le_rfl le_rfl rfl fun _ _ _ _ _ => ⟨rfl, rfl, rfl⟩
      rw [setRequest_requests, if_neg (Ne.symm he)]
      exact .refl _
  | callOnDocument =>
    refine .own d rfl rfl ⟨rfl, rfl, rfl, le_rfl, ?_⟩ le_rfl le_rfl rfl fun _ _ _ => rfl
    exact delivered_append _ _ fun _ => nofun
  | settleOpen =>
    refine .idle d rfl ?_ ?_ ?_ fun _ _ _ => rfl
    · split <;> exact le_rfl
    · split <;> exact le_rfl
    · split <;> rfl
  | _ => exact .idle d rfl le_rfl le_rfl rfl fun _ _ _ => rfl

theorem StopExec.flow {exited : Prop} (h : StopExec s exited op s' next) :
  Flow s op s' next d
  := by
  cases h with
  | failOpening =>
    refine .idle d rfl ?_ ?_ ?_ fun _ _ _ => rfl
    · simp [comp_def, Op.undelivered]
    · simp [comp_def, Op.underWay, Op.undelivered]
    · simp [comp_def, Op.crediting]
  | failIfOpening unlocked =>
    refine .idle d rfl ?_ ?_ ?_ fun _ _ _ => rfl
    · split <;> exact le_rfl
    · split <;> exact le_rfl
    · split <;> rfl
  | abandonRequests =>
    refine .idle d rfl ?_ ?_ ?_ fun _ _ _ => rfl
    · simp [comp_def, Op.undelivered]
    · simp [comp_def, Op.underWay, Op.undelivered]
    · simp [comp_def, Op.crediting]
  | stopReschedules => exact .idle d rfl le_rfl le_rfl rfl fun _ _ _ => rfl
  | joinWorkers => exact .idle d rfl le_rfl le_rfl rfl fun _ _ _ => rfl
  | _ => exact .wake d rfl le_rfl le_rfl rfl fun _ _ _ => rfl

theorem queued_push {α : Type} {queue : List α} {page : α → PageJob} {job : α} :
  ((queue ++ [job]).map fun job => (page job).of d).sum =
    (page job).of d + (queue.map fun job => (page job).of d).sum
  := by
  rw [map_append, sum_append, map_singleton, sum_singleton, add_comm]

theorem ScheduleExec.flow (h : ScheduleExec s op s' next) :
  Flow s op s' next d
  := by
  cases h with
  | clearPending =>
    exact .own d rfl rfl ⟨rfl, rfl, rfl, le_rfl, rfl⟩ le_rfl le_rfl rfl fun _ _ _ => rfl
  | cancelRest unlocked source published cancelled left =>
    refine .own d rfl rfl ⟨rfl, rfl, rfl, ?_, rfl⟩ le_rfl le_rfl rfl fun _ _ _ => rfl
    simp only
    omega
  | schedulePages =>
    exact .own d rfl rfl ⟨rfl, rfl, rfl, le_rfl, rfl⟩ le_rfl le_rfl rfl fun _ _ _ => rfl
  | @schedulePage e render slots left pushed =>
    obtain ⟨hqueue, -⟩ := tryPush_eq_true pushed
    have hpage : ({ s with render := render } : State).queued d =
        PageJob.of ⟨e, (s.requests e).nextPageToSchedule⟩ d + s.queued d := by
      simp only [queued, hqueue, queued_push, add_assoc]
    by_cases he : e = d
    · subst he
      refine .schedule rfl slots ?_ ?_ rfl
      · exact update_self ..
      · rw [PageJob.of, if_pos rfl] at hpage
        exact hpage
    · rw [PageJob.of, if_neg he, zero_add] at hpage
      refine .calm ?_ (le_of_eq (congrArg _ hpage)) (le_of_eq (congrArg _ hpage)) rfl ?_
      · rw [setRequest_requests, if_neg (Ne.symm he)]
        exact .refl _
      · rintro t c c' rfl -
        rw [Tally.note]
        split
        · exact ⟨update_of_ne (Ne.symm he) .., rfl, rfl⟩
        · exact ⟨rfl, rfl, rfl⟩
  | @renderRefused e render slots left refused =>
    obtain ⟨hqueue, -⟩ := tryPush_eq_false refused
    have hpages : ({ s with render := render } : State).queued d = s.queued d := by
      simp only [queued, hqueue]
    refine .calm (SameCredit.setRequest ?_ ?_ d) (le_of_eq (congrArg _ hpages))
      (le_of_eq (congrArg _ hpages)) rfl ?_
    · rfl
    · exact ⟨rfl, rfl, rfl, le_rfl, rfl⟩
    rintro t c c' rfl hafter
    rw [Tally.note, hafter, if_neg (by simp)]
    exact ⟨rfl, rfl, rfl⟩
  | @scheduled e done =>
    refine .calm (SameCredit.setRequest rfl ⟨rfl, rfl, rfl, le_rfl, rfl⟩ d) le_rfl le_rfl rfl ?_
    rintro t c c' rfl hafter
    rw [Tally.note, hafter, if_neg (by simp)]
    exact ⟨rfl, rfl, rfl⟩
  | countCancelled =>
    refine .own d rfl rfl ⟨rfl, rfl, rfl, le_rfl, rfl⟩ ?_ ?_ ?_ fun _ _ _ => rfl
    · split <;> exact le_rfl
    · split <;> exact le_rfl
    · split <;> rfl
  | _ => exact .idle d rfl le_rfl le_rfl rfl fun _ _ _ => rfl

theorem StageExec.flow (h : StageExec s op s' next) :
  Flow s op s' next d
  := by
  cases h with
  | @popRender page waiters render popped =>
    obtain ⟨hqueue, -⟩ := pop_eq_some popped
    have hpages : s.queued d = page.of d + ({ s with render := render } : State).queued d := by
      simp only [queued, hqueue, map_cons, sum_cons, add_assoc]
    refine .wake d rfl ?_ ?_ rfl fun _ _ _ => rfl
    all_goals simp [Op.underWay, Op.undelivered, hpages]
  | @popInference job waiters inference popped =>
    obtain ⟨hqueue, -⟩ := pop_eq_some popped
    have hpages : s.queued d =
        job.page.of d + ({ s with inference := inference } : State).queued d := by
      simp only [queued, hqueue, map_cons, sum_cons]
      ac_rfl
    refine .wake d rfl ?_ ?_ rfl fun _ _ _ => rfl
    all_goals simp [Op.underWay, Op.undelivered, hpages]
  | @popAssembly page waiters assembly popped =>
    obtain ⟨hqueue, -⟩ := pop_eq_some popped
    have hpages : s.queued d = page.of d + ({ s with assembly := assembly } : State).queued d := by
      simp only [queued, hqueue, map_cons, sum_cons]
      ac_rfl
    refine .wake d rfl ?_ ?_ rfl fun _ _ _ => rfl
    all_goals simp [Op.underWay, Op.undelivered, hpages]
  | @inferenceClosed page runOcr inference ready refused =>
    obtain ⟨rfl, -⟩ := push_eq_false refused
    refine .idle d rfl ?_ ?_ rfl fun _ _ _ => rfl
    all_goals simp [Op.underWay, Op.undelivered, queued]
  | @assemblyClosed page assembly ready refused =>
    obtain ⟨rfl, -⟩ := push_eq_false refused
    refine .idle d rfl ?_ ?_ rfl fun _ _ _ => rfl
    all_goals simp [Op.underWay, Op.undelivered, queued]
  | @pushInference page runOcr inference ready pushed =>
    obtain ⟨hqueue, -⟩ := push_eq_true pushed
    have hpages : ({ s with inference := inference } : State).queued d =
        page.of d + s.queued d := by
      simp only [queued, hqueue, queued_push]
      ac_rfl
    refine .idle d rfl ?_ ?_ rfl fun _ _ _ => rfl
    all_goals simp [Op.underWay, Op.undelivered, hpages]
  | @pushAssembly page assembly ready pushed =>
    obtain ⟨hqueue, -⟩ := push_eq_true pushed
    have hpages : ({ s with assembly := assembly } : State).queued d =
        page.of d + s.queued d := by
      simp only [queued, hqueue, queued_push]
      ac_rfl
    refine .idle d rfl ?_ ?_ rfl fun _ _ _ => rfl
    all_goals simp [Op.underWay, Op.undelivered, hpages]
  | @callOnPage page =>
    by_cases he : page.request = d
    · subst he
      exact .deliver page.pageNumber rfl rfl rfl
    · refine .calm ?_ ?_ ?_ rfl fun _ _ _ _ _ => ⟨rfl, rfl, rfl⟩
      · rw [setRequest_requests, if_neg (Ne.symm he)]
        exact .refl _
      · simp [Op.undelivered, PageJob.of, he, queued]
      · simp [Op.underWay, Op.undelivered, PageJob.of, he, queued]
  | @onPageReturns page delivery =>
    refine .idle d rfl ?_ ?_ ?_ fun _ _ _ => rfl
    · cases delivery <;> simp [Op.undelivered]
    · cases delivery <;> simp [Op.underWay, Op.undelivered]
    · cases delivery <;> rfl
  | _ =>
    refine .idle d rfl ?_ ?_ rfl fun _ _ _ => rfl
    all_goals simp [Op.underWay, Op.undelivered, queued]

theorem Exec.flow {c : Pool} (h : Exec c op s' next) :
  Flow c.shared op s' next d
  := by
  cases h with
  | caller h => exact h.flow d
  | request h => exact h.flow d
  | opening h => exact h.flow d
  | schedule h => exact h.flow d
  | stage h => exact h.flow d
  | stop h => exact h.flow d

end Flow

/-! ### The credits of a document -/

/-- The pages of a document that wait for delivery. -/
def Pool.undelivered (c : Pool) (d : RequestId) : Multiset ℤ :=
  (c.ops.map (Op.undelivered d)).sum + c.shared.queued d

/-- The credits of a document that are about to be returned. -/
def Pool.crediting (c : Pool) (d : RequestId) : ℕ :=
  (c.ops.map (Op.crediting d)).sum

/-- The credits of a document are in order: those left and those out are no more than the page
window and what was returned, and only pages that were scheduled are under way or delivered. -/
structure Pool.Credited (c : Pool) (t : Tally) (d : RequestId) : Prop where
  window : (c.shared.requests d).availableSlots + (t.scheduled d).length ≤
    (c.shared.requests d).pageWindow + t.credited d
  unpublished : (c.shared.requests d).totalPages = 0 → t.scheduled d = []
  scheduled : ∀ page ∈ t.scheduled d, page < (c.shared.requests d).nextPageToSchedule
  nodup : (t.scheduled d).Nodup
  undelivered : c.undelivered d + (c.shared.requests d).delivered ≤ (t.scheduled d : Multiset ℤ)
  underWay : c.underWay d ≤ (t.scheduled d : Multiset ℤ)
  credited : t.credited d + c.crediting d ≤ t.released d

theorem sum_ops_perm {M : Type*} [AddCommMonoid M] (f : Op → M) {c : Pool} {ops : List Op}
    (h : c.ops.Perm ops) :
  (c.ops.map f).sum = (ops.map f).sum
  := (h.map f).sum_eq

/-- A document that is about to be published has no pages yet. -/
theorem Reachable.unpublished {c : Pool} (h : Reachable c) {d : RequestId} {first last : ℤ}
    (hop : .publishPages d first last ∈ c.ops) :
  (c.shared.requests d).totalPages = 0
  := by
  apply (h.sound d).opening.unopened
  refine ⟨.opening, mem_tokens.mpr (Or.inl ⟨_, hop, ?_⟩), rfl⟩
  simp [Op.holds, Token.for]

/-- The render queue is filled for a document with pages. -/
theorem Reachable.published {c : Pool} (h : Reachable c) {d : RequestId}
    (hop : .scheduleLoop d ∈ c.ops) :
  (c.shared.requests d).totalPages ≠ 0
  := by
  have hfilling := (h.sound d).opening.filling (mem_tokens.mpr (Or.inl ⟨_, hop, by
    simp [Op.holds, Token.for]⟩))
  exact Ne.symm (ne_of_lt hfilling)

/-- A document not submitted yet has no pages. -/
theorem Reachable.fresh {c : Pool} (h : Reachable c) :
  (c.shared.requests c.shared.nextSerial).totalPages = 0
  := ((h.sound c.shared.nextSerial).opening.fresh (by simp [ledger])).1

/-- What an action and the state hold is exchanged for less. -/
theorem exchange_le {before after queued queued' rest total : Multiset ℤ}
    (h : after + queued' ≤ before + queued) (bound : before + rest + queued ≤ total) :
  after + rest + queued' ≤ total
  := by
  calc after + rest + queued'
    _ = after + queued' + rest := by ac_rfl
    _ ≤ before + queued + rest := add_le_add_left h rest
    _ = before + rest + queued := by ac_rfl
    _ ≤ total := bound

/-- A step keeps the credits of every document in order. -/
theorem Pool.Credited.step {c c' : Pool} {t : Tally} {op : Op} {d : RequestId}
    (h : c.Credited t d) (reachable : Reachable c) (step : Step c op c') :
  c'.Credited (t.note c op c') d
  := by
  obtain ⟨next, rest, runs, hops, hops'⟩ := step.ops_perm
  obtain ⟨window, unpublished, scheduled, nodup, undelivered, underWay, credited⟩ := h
  simp only [Pool.undelivered, Pool.underWay, Pool.crediting, sum_ops_perm _ hops,
    map_cons, sum_cons] at undelivered underWay credited
  have hmem := step.op_mem
  cases runs.flow d with
  | calm same hundelivered hunderWay hcrediting unnoted =>
    obtain ⟨hscheduled, hreleased, hcredited⟩ := unnoted t c c' rfl rfl
    constructor
    case window =>
      rwa [same.slots, same.window, hscheduled, hcredited]
    case unpublished => rwa [same.total, hscheduled]
    case scheduled =>
      rw [hscheduled]
      exact fun page hpage => lt_of_lt_of_le (scheduled page hpage) same.next
    case nodup => rwa [hscheduled]
    case undelivered =>
      rw [Pool.undelivered, sum_ops_perm _ hops', map_append, sum_append, hscheduled,
        same.delivered]
      rw [add_assoc] at undelivered ⊢
      refine exchange_le ?_ undelivered
      rw [← add_assoc, ← add_assoc]
      exact add_le_add_left hundelivered _
    case underWay =>
      rw [Pool.underWay, sum_ops_perm _ hops', map_append, sum_append, hscheduled]
      exact exchange_le hunderWay underWay
    case credited =>
      rw [Pool.crediting, sum_ops_perm _ hops', map_append, sum_append, hcrediting,
        hcredited, hreleased]
      omega
  | release slots called same pages hcrediting =>
    subst called
    constructor
    case window => rwa [same]
    case unpublished => rwa [same]
    case scheduled => rwa [same]
    case nodup => exact nodup
    case undelivered =>
      rwa [Pool.undelivered, sum_ops_perm _ hops', map_append, sum_append, pages.1, same]
    case underWay =>
      rwa [Pool.underWay, sum_ops_perm _ hops', map_append, sum_append, pages.2, same]
    case credited =>
      rw [Pool.crediting, sum_ops_perm _ hops', map_append, sum_append]
      simp only [Tally.note, update_self]
      omega
  | credit slots called added woken =>
    subst called woken
    have hrequest : c'.shared.requests d =
        { c.shared.requests d with
          availableSlots := min (c.shared.requests d).pageWindow
            ((c.shared.requests d).availableSlots + slots) } := by
      rw [added]
      exact update_self ..
    constructor
    case window =>
      rw [hrequest]
      simp only [Tally.note, update_self]
      omega
    case unpublished => rwa [hrequest]
    case scheduled => rwa [hrequest]
    case nodup => exact nodup
    case undelivered =>
      rw [Pool.undelivered, sum_ops_perm _ hops', hrequest, added]
      exact undelivered
    case underWay =>
      rw [Pool.underWay, sum_ops_perm _ hops', added]
      exact underWay
    case credited =>
      rw [Pool.crediting, sum_ops_perm _ hops']
      simp only [Tally.note, update_self, cons_append, nil_append,
        map_cons, sum_cons]
      simp only [Op.crediting, if_true] at credited ⊢
      omega
  | schedule called slots taken queued looping =>
    subst called looping
    have hnote : t.note c (.scheduleLoop d) c' =
        { t with
          scheduled := update t.scheduled d
            (t.scheduled d ++ [(c.shared.requests d).nextPageToSchedule]) } := by
      rw [Tally.note, taken]
      exact if_pos (Int.lt_succ _)
    have hscheduled : (t.note c (.scheduleLoop d) c').scheduled d =
        t.scheduled d ++ [(c.shared.requests d).nextPageToSchedule] := by
      rw [hnote]
      exact update_self ..
    have hpages : ((t.scheduled d ++ [(c.shared.requests d).nextPageToSchedule] : List ℤ) :
        Multiset ℤ) = (c.shared.requests d).nextPageToSchedule ::ₘ (t.scheduled d : Multiset ℤ) := by
      rw [← Multiset.coe_add, Multiset.coe_singleton, add_comm]
      rfl
    constructor
    case window =>
      rw [hscheduled, taken, hnote, length_append, length_singleton]
      simp only
      omega
    case unpublished =>
      rw [taken]
      exact fun hzero => absurd hzero (reachable.published hmem)
    case scheduled =>
      rw [hscheduled, taken]
      intro page hpage
      obtain hpage | hpage := mem_append.mp hpage
      · exact lt_trans (scheduled page hpage) (Int.lt_succ _)
      · rw [mem_singleton.mp hpage]
        exact Int.lt_succ _
    case nodup =>
      rw [hscheduled, nodup_append']
      refine ⟨nodup, nodup_singleton _, ?_⟩
      rw [disjoint_singleton]
      exact fun hpage => lt_irrefl _ (scheduled _ hpage)
    case undelivered =>
      rw [Pool.undelivered, sum_ops_perm _ hops', hscheduled, hpages, queued, taken,
        Multiset.add_cons, Multiset.cons_add]
      exact Multiset.cons_le_cons _ undelivered
    case underWay =>
      rw [Pool.underWay, sum_ops_perm _ hops', hscheduled, hpages, queued, Multiset.add_cons]
      exact Multiset.cons_le_cons _ underWay
    case credited =>
      rw [Pool.crediting, sum_ops_perm _ hops', hnote]
      exact credited
  | deliver pageNumber called delivered returning =>
    subst called returning
    have hrequest : c'.shared.requests d =
        { c.shared.requests d with
          callbacks := (c.shared.requests d).callbacks ++ [.onPage pageNumber] } := by
      rw [delivered]
      exact update_self ..
    have hdelivered : (c'.shared.requests d).delivered =
        (c.shared.requests d).delivered ++ [pageNumber] := by
      rw [hrequest, Request.delivered, filterMap_append]
      rfl
    constructor
    case window => rwa [hrequest]
    case unpublished => rwa [hrequest]
    case scheduled => rwa [hrequest]
    case nodup => exact nodup
    case undelivered =>
      have hpage : Op.undelivered d (.callOnPage ⟨d, pageNumber⟩) = {pageNumber} := if_pos rfl
      have hnone : Op.undelivered d (.returnOnPage ⟨d, pageNumber⟩) = 0 := rfl
      have hqueued : c'.shared.queued d = c.shared.queued d := by
        rw [delivered]
        rfl
      rw [hpage] at undelivered
      rw [Pool.undelivered, sum_ops_perm _ hops', hdelivered, hqueued, cons_append,
        nil_append, map_cons, sum_cons, hnone, zero_add, ← Multiset.coe_add,
        Multiset.coe_singleton]
      refine le_trans (le_of_eq ?_) undelivered
      ac_rfl
    case underWay =>
      rw [Pool.underWay, sum_ops_perm _ hops', delivered]
      exact underWay
    case credited =>
      rw [Pool.crediting, sum_ops_perm _ hops']
      exact credited
  | publish first last called published announcing =>
    subst called announcing
    have hnone := unpublished (reachable.unpublished hmem)
    have hrequest : c'.shared.requests d =
        { c.shared.requests d with
          remainingPages := last - first + 1
          totalPages := last
          firstPage := first
          nextPageToSchedule := first
          availableSlots := (c.shared.requests d).pageWindow } := by
      rw [published]
      exact update_self ..
    constructor
    case window =>
      rw [hrequest]
      change (c.shared.requests d).pageWindow + (t.scheduled d).length ≤ _
      rw [hnone]
      exact Nat.le_add_right _ _
    case unpublished => exact fun _ => hnone
    case scheduled =>
      intro page hpage
      change page ∈ t.scheduled d at hpage
      rw [hnone] at hpage
      cases hpage
    case nodup => exact nodup
    case undelivered =>
      rw [Pool.undelivered, sum_ops_perm _ hops', hrequest, published]
      exact undelivered
    case underWay =>
      rw [Pool.underWay, sum_ops_perm _ hops', published]
      exact underWay
    case credited =>
      rw [Pool.crediting, sum_ops_perm _ hops']
      exact credited
  | submit tuning new called registered queueing =>
    subst called queueing new
    have hnote : t.note c .caller c' = t := rfl
    have hnone := unpublished reachable.fresh
    have hrequest : c'.shared.requests c.shared.nextSerial =
        .submitted tuning c.shared.options.pageWindow := by
      rw [registered]
      exact update_self ..
    constructor
    case window =>
      rw [hrequest]
      change 0 + (t.scheduled c.shared.nextSerial).length ≤ _
      rw [hnone]
      exact Nat.zero_le _
    case unpublished => exact fun _ => hnone
    case scheduled =>
      intro page hpage
      change page ∈ t.scheduled c.shared.nextSerial at hpage
      rw [hnone] at hpage
      cases hpage
    case nodup => exact nodup
    case undelivered =>
      have hqueued : c'.shared.queued c.shared.nextSerial =
          c.shared.queued c.shared.nextSerial := by
        rw [registered]
        rfl
      simp only [Op.undelivered, zero_add] at undelivered
      rw [Pool.undelivered, sum_ops_perm _ hops', hrequest, hqueued]
      simp only [cons_append, nil_append, map_cons, sum_cons,
        Op.undelivered, zero_add]
      exact le_trans (add_le_add_right (Multiset.zero_le _) _) undelivered
    case underWay =>
      have hqueued : c'.shared.queued c.shared.nextSerial =
          c.shared.queued c.shared.nextSerial := by
        rw [registered]
        rfl
      rw [Pool.underWay, sum_ops_perm _ hops', hqueued, hnote]
      simpa only [cons_append, nil_append, map_cons, sum_cons, Op.underWay,
        Op.undelivered, zero_add] using underWay
    case credited =>
      rw [Pool.crediting, sum_ops_perm _ hops', hnote]
      simpa only [cons_append, nil_append, map_cons, sum_cons,
        Op.crediting, zero_add] using credited

/-- A fresh scheduler has no pages and no credits to return. -/
theorem Pool.start_pages (options : Options) (regionDetector : Bool) (callers : ℕ)
    (d : RequestId) :
  (Pool.start options regionDetector callers).undelivered d = 0 ∧
    (Pool.start options regionDetector callers).underWay d = 0 ∧
    (Pool.start options regionDetector callers).crediting d = 0
  := by
  have hqueued : (start options regionDetector callers).shared.queued d = 0 := rfl
  have hops : ∀ op ∈ (start options regionDetector callers).ops,
      op.undelivered d = 0 ∧ op.underWay d = 0 ∧ op.crediting d = 0 := by
    intro op hop
    obtain ⟨thread, hthread, hop⟩ := mem_flatMap.mp hop
    obtain ⟨head, hloop, hcode⟩ | ⟨-, hcode | hcode⟩ := start_thread hthread
    · rw [hcode, mem_singleton] at hop
      have hhead := Role.isLoop_loop hloop
      subst hop
      cases op with
      | popDocument | popReschedule | popRender | popInference | popAssembly =>
        exact ⟨rfl, rfl, rfl⟩
      | _ => cases hhead
    · rw [hcode, mem_singleton] at hop
      subst hop
      exact ⟨rfl, rfl, rfl⟩
    · rw [hcode, mem_singleton] at hop
      subst hop
      exact ⟨rfl, rfl, rfl⟩
  rw [undelivered, underWay, crediting, hqueued, add_zero, add_zero]
  refine ⟨?_, ?_, ?_⟩
  all_goals
    apply sum_eq_zero
    intro pages hpages
    obtain ⟨op, hop, rfl⟩ := mem_map.mp hpages
    simp only [hops op hop]

/-- The credits of every document are in order in every run. -/
theorem Tallied.credited {c : Pool} {t : Tally} (h : Tallied c t) (d : RequestId) :
  c.Credited t d
  := by
  obtain ⟨options, regionDetector, callers, run⟩ := h
  refine run.invariant (P := fun c t => Pool.Credited c t d) ?_ fun reaches credited step =>
    credited.step ⟨options, regionDetector, callers, reaches⟩ step
  obtain ⟨hundelivered, hunderWay, hcrediting⟩ := start_pages options regionDetector callers d
  constructor
  case window => exact Nat.zero_le _
  case unpublished => exact fun _ => rfl
  case scheduled => exact fun page hpage => nomatch hpage
  case nodup => exact nodup_nil
  case undelivered =>
    rw [hundelivered]
    exact le_rfl
  case underWay =>
    rw [hunderWay]
    exact le_rfl
  case credited => rw [hcrediting]

/-- Backpressure: as long as the caller returns no more credits of a document than pages of it
were delivered, the credits left and the pages scheduled without a credit are no more than the
page window; nor are the pages in the queues, with the workers and delivered without a
credit. -/
theorem Tallied.backpressure {c : Pool} {t : Tally} (h : Tallied c t) (d : RequestId)
    (fair : t.released d ≤ (c.shared.requests d).delivered.length) :
  t.credited d ≤ (t.scheduled d).length ∧
    (c.shared.requests d).availableSlots + ((t.scheduled d).length - t.credited d) ≤
      (c.shared.requests d).pageWindow ∧
    ((c.underWay d).filter (· ∉ (c.shared.requests d).delivered)).card +
        ((c.shared.requests d).delivered.length - t.credited d) ≤
      (c.shared.requests d).pageWindow
  := by
  obtain ⟨window, -, -, nodup, undelivered, underWay, credited⟩ := h.credited d
  have hdelivered : ((c.shared.requests d).delivered : Multiset ℤ) ≤ (t.scheduled d : Multiset ℤ) :=
    le_trans (Multiset.le_add_left _ _) undelivered
  have hdisjoint : (c.underWay d).filter (· ∉ (c.shared.requests d).delivered) +
      (c.shared.requests d).delivered ≤ (t.scheduled d : Multiset ℤ) := by
    have hscheduled : (t.scheduled d : Multiset ℤ).Nodup := nodup
    have hunderWay := le_trans (Multiset.filter_le
      (· ∉ (c.shared.requests d).delivered) _) underWay
    rw [Multiset.le_iff_subset]
    · intro page hpage
      obtain hpage | hpage := Multiset.mem_add.mp hpage
      · exact Multiset.mem_of_le hunderWay hpage
      · exact Multiset.mem_of_le hdelivered hpage
    · rw [Multiset.nodup_add]
      refine ⟨Multiset.nodup_of_le hunderWay hscheduled,
        Multiset.nodup_of_le hdelivered hscheduled, ?_⟩
      rw [Multiset.disjoint_left]
      intro page hpage hdelivered
      have hnot : page ∉ (c.shared.requests d).delivered := (Multiset.mem_filter.mp hpage).2
      exact hnot hdelivered
  have hlength : (c.shared.requests d).delivered.length ≤ (t.scheduled d).length :=
    Multiset.card_le_card hdelivered
  have hcard := Multiset.card_le_card hdisjoint
  rw [Multiset.card_add, Multiset.coe_card, Multiset.coe_card] at hcard
  omega

/-- The credits of a document of one page that was delivered, with its credit released. -/
theorem Tallied.backpressure_delivered :
  ∃ (c : Pool) (t : Tally), t.scheduled 0 = [1] ∧ t.released 0 = 1 ∧
    (c.shared.requests 0).delivered = [1] ∧ t.credited 0 ≤ (t.scheduled 0).length ∧
    (c.shared.requests 0).availableSlots + ((t.scheduled 0).length - t.credited 0) ≤
      (c.shared.requests 0).pageWindow ∧
    ((c.underWay 0).filter (· ∉ (c.shared.requests 0).delivered)).card +
        ((c.shared.requests 0).delivered.length - t.credited 0) ≤
      (c.shared.requests 0).pageWindow
  := by
  have run : ThreadPool.Observes Exec Tally.note (Pool.start smallOptions false 1) {} _ _ := .refl
  have run := run.andThen 5 (.caller (.submit {} (by decide)))
  have run := run.andThen 5 (.caller (.submitPush rfl))
  have run := run.andThen 0 (.opening (.popDocument rfl))
  have run := run.andThen 0 (.opening (.openDocument rfl))
  have run := run.andThen 0 (.opening (.openSource rfl))
  have run := run.andThen 0 (.opening (@OpenExec.countPages _ 0 1 1 1 rfl))
  have run := run.andThen 0 (.opening (.publishPages rfl))
  have run := run.andThen 0 (.opening .callOnDocument)
  have run := run.andThen 0 (.opening .onDocumentReturns)
  have run := run.andThen 0 (.request (.queueReschedule rfl))
  have run := run.andThen 0 (.request (.setPending rfl))
  have run := run.andThen 0 (.request (.pushPending rfl))
  have run := run.andThen 1 (.schedule (.popReschedule rfl rfl))
  have run := run.andThen 1 (.schedule .clearPending)
  have run := run.andThen 1 (.schedule (.schedulePages (d := 0) rfl rfl (by decide) rfl))
  have run := run.andThen 1 (.schedule (.schedulePage (d := 0) (by decide) (by decide) rfl))
  have run := run.andThen 1 (.schedule (.scheduled (d := 0) (Or.inl rfl)))
  have run := run.andThen 2 (.stage (.popRender rfl))
  have run := run.andThen 2 (.stage (.renderPage rfl))
  have run := run.andThen 2 (.stage (@StageExec.rasterize _ ⟨0, 1⟩ none (fun _ => rfl) rfl))
  have run := run.andThen 2 (.stage (.pageRendered rfl))
  have run := run.andThen 2 (.stage (.pushInference (Or.inr (by decide)) rfl))
  have run := run.andThen 3 (.stage (.popInference rfl))
  have run := run.andThen 3 (.stage (.recognizePage rfl))
  have run := run.andThen 3 (.stage .runRecognition)
  have run := run.andThen 3 (.stage (.pushAssembly (Or.inr (by decide)) rfl))
  have run := run.andThen 4 (.stage (.popAssembly rfl))
  have run := run.andThen 4 (.stage (.assemblePage rfl))
  have run := run.andThen 4 (.stage .callOnPage)
  have run := run.andThen 4 (.stage (.onPageReturns .acceptedAndRelease))
  have run := run.andThen 4 (.request (.releaseSlots Nat.one_ne_zero rfl))
  exact ⟨_, _, rfl, rfl, rfl, Tallied.backpressure ⟨smallOptions, false, 1, run⟩ 0 le_rfl⟩

/-! ### The pages under way -/

/-- No page of a document is twice in the queues and with the workers, none is delivered twice
or while it has still to be delivered, and the scheduler never goes back to one of them. -/
theorem Reachable.pages_once {c : Pool} (h : Reachable c) (d : RequestId) :
  (c.underWay d).Nodup ∧ (c.undelivered d + (c.shared.requests d).delivered).Nodup ∧
    ∀ page ∈ c.underWay d + (c.shared.requests d).delivered,
      page < (c.shared.requests d).nextPageToSchedule
  := by
  obtain ⟨options, regionDetector, callers, run⟩ := h
  obtain ⟨t, observed⟩ := run.observed Tally.note {}
  have tallied : Tallied c t := ⟨options, regionDetector, callers, observed⟩
  obtain ⟨-, -, scheduled, nodup, undelivered, underWay, -⟩ := tallied.credited d
  have hscheduled : (t.scheduled d : Multiset ℤ).Nodup := nodup
  refine ⟨Multiset.nodup_of_le underWay hscheduled,
    Multiset.nodup_of_le undelivered hscheduled, ?_⟩
  intro page hpage
  apply scheduled
  obtain hpage | hpage := Multiset.mem_add.mp hpage
  · exact Multiset.mem_of_le underWay hpage
  · exact Multiset.mem_of_le undelivered (Multiset.mem_add.mpr (Or.inr hpage))

/-- A page in the render queue is once under way. -/
theorem Reachable.pages_once_queued :
  ∃ c : Pool, c.underWay 0 = {1} ∧ (c.underWay 0).Nodup ∧
    (c.undelivered 0 + (c.shared.requests 0).delivered).Nodup ∧
    ∀ page ∈ c.underWay 0 + (c.shared.requests 0).delivered,
      page < (c.shared.requests 0).nextPageToSchedule
  := by
  have run : ThreadPool.Reaches Exec (Pool.start smallOptions false 1) _ := .refl
  have run := run.andThen 5 (.caller (.submit {} (by decide)))
  have run := run.andThen 5 (.caller (.submitPush rfl))
  have run := run.andThen 0 (.opening (.popDocument rfl))
  have run := run.andThen 0 (.opening (.openDocument rfl))
  have run := run.andThen 0 (.opening (.openSource rfl))
  have run := run.andThen 0 (.opening (@OpenExec.countPages _ 0 1 1 1 rfl))
  have run := run.andThen 0 (.opening (.publishPages rfl))
  have run := run.andThen 0 (.opening .callOnDocument)
  have run := run.andThen 0 (.opening .onDocumentReturns)
  have run := run.andThen 0 (.request (.queueReschedule rfl))
  have run := run.andThen 0 (.request (.setPending rfl))
  have run := run.andThen 0 (.request (.pushPending rfl))
  have run := run.andThen 1 (.schedule (.popReschedule rfl rfl))
  have run := run.andThen 1 (.schedule .clearPending)
  have run := run.andThen 1 (.schedule (.schedulePages (d := 0) rfl rfl (by decide) rfl))
  have run := run.andThen 1 (.schedule (.schedulePage (d := 0) (by decide) (by decide) rfl))
  exact ⟨_, rfl, Reachable.pages_once ⟨smallOptions, false, 1, run⟩ 0⟩

end GRParse.Scheduler
