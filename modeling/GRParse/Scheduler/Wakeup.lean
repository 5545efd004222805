import GRParse.Scheduler.Finish

/-!
# Wakeups

A document with pages left to schedule, and either cancelled or with credits, is owed a
call of `schedule_pages`: somebody is about to wake the rescheduler for it, or the
rescheduler is on its way (`Ledger.Wakeful`).  The flag `reschedule_pending` is what makes
it safe to drop a wakeup: while it is set, another one is under way.
-/

namespace GRParse.Scheduler

open Token BoundedQueue Op

/-- Whether a request is published, unfinished and has pages left to schedule. -/
def Request.Unscheduled (r : Request) : Prop :=
  r.source = true ∧ 0 < r.totalPages ∧ r.nextPageToSchedule ≤ r.totalPages ∧
    r.finishCalled = false

/-- Whether a token ends in a call of `schedule_pages`. -/
def Token.wakes : Token → Bool
  | .waking | .setting | .pushing | .pending | .clearing | .scheduling | .announcing
  | .returning => true
  | _ => false

/-- Whether a token of a cancelled document ends in a call of `schedule_pages`:
`complete_page` wakes the rescheduler too. -/
def Token.wakesCancelled : Token → Bool
  | .leaving _ => true
  | t => t.wakes

/-- Whether a token stands for the flag `reschedule_pending`. -/
def Token.flags : Token → Bool
  | .pushing | .pending | .clearing => true
  | _ => false

section Entries

variable {joined : Bool} {r r' : Request} {taken put : Multiset Token}

/-- Where the wakeup of a cancelled document comes from after an entry: the entry puts it,
or it was there and is not taken, or the flag vouches for it.  An opener that settles a
document with no page left owes none. -/
theorem Act.wakes_cancelled (act : Act false joined r taken r' put)
    (unscheduled : r'.Unscheduled) (cancelled : r'.cancelled = true) :
  (∃ t ∈ put, t.wakesCancelled = true) ∨
    r.Unscheduled ∧ r.cancelled = true ∧ (∀ t ∈ taken, t.wakesCancelled = false) ∨
    taken = {.setting} ∧ r.reschedulePending = true ∨
    taken = {.returning} ∧ r.remainingPages = 0 ∧ r' = r ∨
    taken = {.opening} ∧ r'.totalPages = r.totalPages
  := by
  cases act with
  | alreadyPending pending => simp [pending]
  | settleOpen none_left => simp [none_left]
  | openSource => simp
  | notPublished unpublished =>
    obtain ⟨hsource, hpublished, -, -⟩ := unscheduled
    obtain hnone | hnone := unpublished
    · simp [hsource] at hnone
    · omega
  | nothingLeft none_left =>
    obtain ⟨-, -, left, -⟩ := unscheduled
    omega
  | _ => simp_all [Request.Unscheduled, wakesCancelled, wakes]

/-- Where the wakeup of a document with credits comes from after an entry. -/
theorem Act.wakes_credited (act : Act false joined r taken r' put)
    (unscheduled : r'.Unscheduled) (credited : 0 < r'.availableSlots) :
  (∃ t ∈ put, t.wakes = true ∨ t = .filling) ∨
    r.Unscheduled ∧ 0 < r.availableSlots ∧
      (∀ t ∈ taken, t.wakes = false ∧ t ≠ .filling) ∨
    taken = {.setting} ∧ r.reschedulePending = true ∨
    taken = {.returning} ∧ r.remainingPages = 0 ∧ r' = r ∨
    taken = {.opening} ∧ r'.totalPages = r.totalPages
  := by
  cases act with
  | alreadyPending pending => simp [pending]
  | settleOpen none_left => simp [none_left]
  | openSource => simp
  | notPublished unpublished =>
    obtain ⟨hsource, hpublished, -, -⟩ := unscheduled
    obtain hnone | hnone := unpublished
    · simp [hsource] at hnone
    · omega
  | nothingLeft none_left =>
    obtain ⟨-, -, left, -⟩ := unscheduled
    omega
  | scheduled done =>
    obtain ⟨-, -, left, -⟩ := unscheduled
    simp only at left credited
    omega
  | complete outcome =>
    apply Or.inr
    apply Or.inl
    simp_all [Request.Unscheduled, wakes]
  | count =>
    apply Or.inr
    apply Or.inl
    simp_all [Request.Unscheduled, wakes]
  | _ => simp_all [Request.Unscheduled, wakes]

/-- Where the token behind the flag comes from after an entry. -/
theorem Act.flags (act : Act false joined r taken r' put) (pending : r'.reschedulePending = true) :
  (∃ t ∈ put, t.flags = true) ∨
    r.reschedulePending = true ∧ ∀ t ∈ taken, t.flags = false
  := by
  cases act with
  | complete outcome => simp_all [flags]
  | count => simp_all [flags]
  | _ => simp_all [flags]

end Entries

/-! ### What a document is owed -/

namespace Ledger

variable {l l' : Ledger} {taken : Multiset Token}

/-- What is owed to a document while the scheduler runs. -/
structure Wakeful (l : Ledger) : Prop where
  flag : l.stopping = false → l.request.reschedulePending = true →
    ∃ t ∈ l.tokens, t.flags = true
  cancelled : l.stopping = false → l.request.Unscheduled → l.request.cancelled = true →
    ∃ t ∈ l.tokens, t.wakesCancelled = true
  credited : l.stopping = false → l.request.Unscheduled → 0 < l.request.availableSlots →
    ∃ t ∈ l.tokens, t.wakes = true ∨ t = .filling

/-- A token an entry does not take stays. -/
theorem kept {p : Token → Prop} {tokens put rest : Multiset Token}
    (holds : tokens = taken + rest) (h : ∃ t ∈ tokens, p t) (untaken : ∀ t ∈ taken, ¬ p t) :
  ∃ t ∈ put + rest, p t
  := by
  obtain ⟨t, ht, hp⟩ := h
  rw [holds, Multiset.mem_add] at ht
  obtain ht | ht := ht
  · exact absurd hp (untaken t ht)
  · exact ⟨t, by simp [ht], hp⟩

/-- A token an entry puts is there. -/
theorem gained {p : Token → Prop} {put rest : Multiset Token} (h : ∃ t ∈ put, p t) :
  ∃ t ∈ put + rest, p t
  := by
  obtain ⟨t, ht, hp⟩ := h
  exact ⟨t, by simp [ht], hp⟩

/-- An entry that drops a wakeup leaves the token behind the flag. -/
theorem Wakeful.excused {put rest : Multiset Token} {r : Request} (wakeful : l.Wakeful)
    (sound : l.Sound) (running : l.stopping = false) (holds : l.tokens = taken + rest)
    (unscheduled : r.Unscheduled)
    (h : taken = {.setting} ∧ l.request.reschedulePending = true ∨
      taken = {.returning} ∧ l.request.remainingPages = 0 ∧ r = l.request ∨
      taken = {.opening} ∧ r.totalPages = l.request.totalPages) :
  ∃ t ∈ put + rest, t.flags = true
  := by
  obtain ⟨-, published, left, -⟩ := unscheduled
  obtain ⟨htaken, pending⟩ | ⟨-, none_left, rfl⟩ | ⟨htaken, htotal⟩ := h
  · apply kept holds (wakeful.flag running pending)
    simp [htaken, flags]
  · have hpast := (sound.accounts.none_left (by omega) none_left).2.2
    omega
  · have hzero := sound.opening.unopened ⟨.opening, by simp [holds, htaken], rfl⟩
    omega

/-- The token behind the flag ends in a call of `schedule_pages`. -/
theorem wakes_of_flags {t : Token} (h : t.flags = true) :
  t.wakes = true
  := by
  cases t <;> simp_all [flags, wakes]

/-- A token that ends in a call of `schedule_pages` does so for a cancelled document. -/
theorem wakesCancelled_of_wakes {t : Token} (h : t.wakes = true) :
  t.wakesCancelled = true
  := by
  cases t <;> simp_all [wakesCancelled, wakes]

/-- A move keeps what is owed to a document. -/
theorem Wakeful.move (wakeful : l.Wakeful) (sound : l.Sound) (move : l.Move taken l') :
  l'.Wakeful
  := by
  cases move with
  | idle => exact wakeful
  | @act taken put rest r holds act =>
    constructor
    · intro running pending
      simp only at running pending ⊢
      rw [running] at act
      obtain hput | ⟨pending', untaken⟩ := act.flags pending
      · exact gained hput
      · apply kept holds (wakeful.flag running pending')
        simpa using untaken
    · intro running unscheduled cancelled
      simp only at running unscheduled cancelled ⊢
      rw [running] at act
      obtain hput | ⟨unscheduled', cancelled', untaken⟩ | hexcuse :=
        act.wakes_cancelled unscheduled cancelled
      · exact gained hput
      · apply kept holds (wakeful.cancelled running unscheduled' cancelled')
        simpa using untaken
      · obtain ⟨t, ht, hflags⟩ := wakeful.excused sound running holds unscheduled hexcuse
        exact ⟨t, ht, wakesCancelled_of_wakes (wakes_of_flags hflags)⟩
    · intro running unscheduled credited
      simp only at running unscheduled credited ⊢
      rw [running] at act
      obtain hput | ⟨unscheduled', credited', untaken⟩ | hexcuse :=
        act.wakes_credited unscheduled credited
      · exact gained hput
      · apply kept holds (wakeful.credited running unscheduled' credited')
        simpa [not_or] using untaken
      · obtain ⟨t, ht, hflags⟩ := wakeful.excused sound running holds unscheduled hexcuse
        exact ⟨t, ht, Or.inl (wakes_of_flags hflags)⟩
  | submit tuning pageWindow new =>
    constructor <;> simp [Request.submitted, Request.Unscheduled]
  | stop => constructor <;> simp
  | join stopping external => constructor <;> simp [stopping]
  | abandon joined old times =>
    have stopping := (sound.finishing.joined joined).1
    constructor <;> simp [stopping]

end Ledger

/-- What is owed to the documents of a reachable scheduler. -/
theorem Reachable.wakeful {c : Pool} (h : Reachable c) (d : RequestId) :
  (c.ledger d).Wakeful
  := by
  obtain ⟨options, regionDetector, callers, run⟩ := h
  induction run with
  | refl =>
    rw [Pool.start_ledger]
    constructor <;> simp [Request.Unscheduled]
  | step run _ step ih =>
    have reachable : Reachable _ := ⟨options, regionDetector, callers, run⟩
    obtain ⟨taken, move, -⟩ := Step.move reachable.orderly step d
    exact ih.move (reachable.sound d) move

/-! ### The waiters of the queues -/

/-- Only the render queue has waiters, and only while it is full. -/
structure State.Waiting (s : State) : Prop where
  documents : s.documents.spaceWaiters = []
  inference : s.inference.spaceWaiters = []
  assembly : s.assembly.spaceWaiters = []
  positive : 0 < s.render.capacity
  full : s.render.spaceWaiters ≠ [] → s.render.capacity ≤ s.render.queue.length

/-- Every action keeps the waiters of the queues in order. -/
theorem Exec.waiting {c : Pool} {op : Op} {s' : State} {next : List Op}
    (h : Exec c op s' next) (waiting : c.shared.Waiting) :
  s'.Waiting
  := by
  have ⟨documents, inference, assembly, positive, full⟩ := waiting
  cases h with
  | caller h =>
    cases h with
    | submitPush pushed =>
      obtain ⟨-, hwaiters, -⟩ := tryPush_eq_true pushed
      exact ⟨hwaiters.trans documents, inference, assembly, positive, full⟩
    | submitRefused refused =>
      obtain ⟨-, -, -, ⟨-, hwaiters⟩ | ⟨-, -, hwaiters⟩⟩ :=
        tryPush_eq_false refused
      · exact ⟨hwaiters.trans documents, inference, assembly, positive, full⟩
      · rw [Option.toList_none, List.append_nil] at hwaiters
        exact ⟨hwaiters.trans documents, inference, assembly, positive, full⟩
    | _ => exact ⟨documents, inference, assembly, positive, full⟩
  | request h => cases h <;> exact ⟨documents, inference, assembly, positive, full⟩
  | opening h =>
    cases h with
    | popDocument popped =>
      obtain ⟨-, -, hwaiters, -⟩ := pop_eq_some popped
      exact ⟨hwaiters, inference, assembly, positive, full⟩
    | _ => exact ⟨documents, inference, assembly, positive, full⟩
  | schedule h =>
    cases h with
    | schedulePage slots left pushed =>
      obtain ⟨hqueue, hwaiters, -, -, hcapacity, -⟩ := tryPush_eq_true pushed
      refine ⟨documents, inference, assembly, hcapacity ▸ positive, fun hne => ?_⟩
      simp only [State.setRequest_render, hwaiters, hqueue, hcapacity, List.length_append]
        at hne ⊢
      exact le_trans (full hne) (Nat.le_add_right _ _)
    | renderRefused slots left refused =>
      obtain ⟨hqueue, -, hcapacity, ⟨-, hwaiters⟩ | ⟨-, hfull, -⟩⟩ :=
        tryPush_eq_false refused
      · refine ⟨documents, inference, assembly, hcapacity ▸ positive, fun hne => ?_⟩
        simp only [State.setRequest_render, hwaiters, hqueue, hcapacity] at hne ⊢
        exact full hne
      · refine ⟨documents, inference, assembly, hcapacity ▸ positive, fun _ => ?_⟩
        simp only [State.setRequest_render, hqueue, hcapacity]
        exact hfull
    | _ => exact ⟨documents, inference, assembly, positive, full⟩
  | stage h =>
    cases h with
    | popRender popped =>
      obtain ⟨-, -, hwaiters, -, hcapacity⟩ := pop_eq_some popped
      exact ⟨documents, inference, assembly, hcapacity ▸ positive,
        fun hne => absurd hwaiters hne⟩
    | popInference popped =>
      obtain ⟨-, -, hwaiters, -⟩ := pop_eq_some popped
      exact ⟨documents, hwaiters, assembly, positive, full⟩
    | popAssembly popped =>
      obtain ⟨-, -, hwaiters, -⟩ := pop_eq_some popped
      exact ⟨documents, inference, hwaiters, positive, full⟩
    | inferenceClosed ready refused =>
      obtain ⟨rfl, -⟩ := push_eq_false refused
      exact waiting
    | assemblyClosed ready refused =>
      obtain ⟨rfl, -⟩ := push_eq_false refused
      exact waiting
    | pushInference ready pushed =>
      obtain ⟨-, hwaiters, -⟩ := push_eq_true pushed
      exact ⟨documents, hwaiters.trans inference, assembly, positive, full⟩
    | pushAssembly ready pushed =>
      obtain ⟨-, hwaiters, -⟩ := push_eq_true pushed
      exact ⟨documents, inference, hwaiters.trans assembly, positive, full⟩
    | _ => exact ⟨documents, inference, assembly, positive, full⟩
  | stop h =>
    cases h with
    | stop => exact ⟨rfl, inference, assembly, positive, full⟩
    | closeRender => exact ⟨documents, inference, assembly, positive, fun hne => absurd rfl hne⟩
    | closeInference => exact ⟨documents, rfl, assembly, positive, full⟩
    | closeAssembly => exact ⟨documents, inference, rfl, positive, full⟩
    | _ => exact ⟨documents, inference, assembly, positive, full⟩

/-- The waiters of the queues of a reachable scheduler are in order. -/
theorem Reachable.waiting {c : Pool} (h : Reachable c) :
  c.shared.Waiting
  := by
  obtain ⟨options, regionDetector, callers, run⟩ := h
  induction run with
  | refl =>
    have hpositive := options.positive.2.1
    constructor <;> simp [Pool.start, State.start, hpositive]
  | step _ _ step ih =>
    obtain ⟨next, rest, runs, -⟩ := step.ops_perm
    exact runs.waiting ih

/-! ### No wakeup is lost -/

/-- Where the next call of `schedule_pages` for a document can be owed from. -/
inductive Pool.Owed (c : Pool) (d : RequestId) : Prop where
  /-- The document is one of the pending reschedules. -/
  | pending (h : d ∈ c.shared.pendingReschedules)
  /-- The rescheduler holds it between the pop and `schedule_pages`. -/
  | popped (h : .clearPending d ∈ c.ops ∨ .schedulePages d ∈ c.ops)
  /-- Its waiter is registered with the render queue. -/
  | waiting (h : d ∈ c.shared.render.spaceWaiters)
  /-- A pop that took its waiter, or a thread that changed its state, is about to call
  `queue_reschedule`, or inside it. -/
  | waking (h : .queueReschedule d ∈ c.ops ∨ .setPending d ∈ c.ops ∨ .pushPending d ∈ c.ops)
  /-- The opener that published its credits has yet to call `queue_reschedule`. -/
  | opening (h : (∃ pageCount, .callOnDocument d pageCount ∈ c.ops) ∨
      .returnOnDocument d ∈ c.ops ∨ (∃ failure, .fail d failure .settleOpen ∈ c.ops) ∨
      .cancel d .settleOpen ∈ c.ops ∨ .settleOpen d ∈ c.ops)
  /-- The document is cancelled, and a worker is about to call `complete_page`, which calls
  `queue_reschedule`. -/
  | completing (cancelled : (c.shared.requests d).cancelled = true)
      (h : ∃ pageNumber outcome, .completePage ⟨d, pageNumber⟩ outcome ∈ c.ops)

/-- A pending action whose token ends in a call of `schedule_pages` is one of the places it
can be owed from. -/
theorem Pool.owed_of_op {c : Pool} {d : RequestId} {t : Token} {op : Op} (hop : op ∈ c.ops)
    (ht : (d, t) ∈ op.holds)
    (h : t.wakes = true ∨
      (c.shared.requests d).cancelled = true ∧ t.wakesCancelled = true) :
  c.Owed d
  := by
  cases op with
  | fail e value next =>
    cases next with
    | settleOpen =>
      obtain ⟨rfl, rfl⟩ : d = e ∧ t = .returning := by simpa [Op.holds, Token.for] using ht
      exact .opening (Or.inr (Or.inr (Or.inl ⟨value, hop⟩)))
    | _ => simp_all [Op.holds, Token.for, Token.wakes, Token.wakesCancelled]
  | cancel e next =>
    cases next with
    | settleOpen =>
      obtain ⟨rfl, rfl⟩ : d = e ∧ t = .returning := by simpa [Op.holds, Token.for] using ht
      exact .opening (Or.inr (Or.inr (Or.inr (Or.inl hop))))
    | _ => simp_all [Op.holds, Token.for, Token.wakes, Token.wakesCancelled]
  | settleOpen e =>
    obtain ⟨rfl, rfl⟩ : d = e ∧ t = .returning := by simpa [Op.holds, Token.for] using ht
    exact .opening (Or.inr (Or.inr (Or.inr (Or.inr hop))))
  | callOnDocument e pageCount =>
    obtain ⟨rfl, rfl⟩ : d = e ∧ t = .announcing := by simpa [Op.holds, Token.for] using ht
    exact .opening (Or.inl ⟨pageCount, hop⟩)
  | returnOnDocument e =>
    obtain ⟨rfl, rfl⟩ : d = e ∧ t = .returning := by simpa [Op.holds, Token.for] using ht
    exact .opening (Or.inr (Or.inl hop))
  | queueReschedule e =>
    obtain ⟨rfl, rfl⟩ : d = e ∧ t = .waking := by simpa [Op.holds, Token.for] using ht
    exact .waking (Or.inl hop)
  | setPending e =>
    obtain ⟨rfl, rfl⟩ : d = e ∧ t = .setting := by simpa [Op.holds, Token.for] using ht
    exact .waking (Or.inr (Or.inl hop))
  | pushPending e =>
    obtain ⟨rfl, rfl⟩ : d = e ∧ t = .pushing := by simpa [Op.holds, Token.for] using ht
    exact .waking (Or.inr (Or.inr hop))
  | clearPending e =>
    obtain ⟨rfl, rfl⟩ : d = e ∧ t = .clearing := by simpa [Op.holds, Token.for] using ht
    exact .popped (Or.inl hop)
  | schedulePages e =>
    obtain ⟨rfl, rfl⟩ : d = e ∧ t = .scheduling := by simpa [Op.holds, Token.for] using ht
    exact .popped (Or.inr hop)
  | completePage page outcome =>
    obtain ⟨rfl, rfl⟩ : d = page.request ∧ t = .leaving page.pageNumber := by
      simpa [Op.holds, Token.for] using ht
    obtain hwakes | ⟨cancelled, -⟩ := h
    · simp [Token.wakes] at hwakes
    · exact .completing cancelled ⟨page.pageNumber, outcome, hop⟩
  | _ => simp_all [Op.holds, Token.for, Token.wakes, Token.wakesCancelled]

/-- A token that ends in a call of `schedule_pages` is one of the places it can be owed
from. -/
theorem Pool.owed_of_token {c : Pool} {d : RequestId} {t : Token} (waiting : c.shared.Waiting)
    (ht : t ∈ (c.ledger d).tokens)
    (h : t.wakes = true ∨
      (c.shared.requests d).cancelled = true ∧ t.wakesCancelled = true) :
  c.Owed d
  := by
  obtain ⟨op, hop, ht⟩ | ht := Pool.mem_tokens.mp ht
  · exact Pool.owed_of_op hop ht h
  · obtain ⟨rfl, -⟩ | ⟨rfl, hwaiting⟩ | ⟨rfl, hpending⟩ | ⟨pageNumber, rfl, -⟩ :=
      State.mem_holds ht
    · simp [wakes, wakesCancelled] at h
    · apply Pool.Owed.waiting
      simpa [waiting.documents, waiting.inference, waiting.assembly] using hwaiting
    · exact .pending hpending
    · simp [wakes, wakesCancelled] at h

/-- The token of `schedule_pages` filling the render queue is the action that does so. -/
theorem Pool.filling_mem {c : Pool} {d : RequestId} (h : .filling ∈ (c.ledger d).tokens) :
  .scheduleLoop d ∈ c.ops
  := by
  obtain ⟨op, hop, ht⟩ | ht := Pool.mem_tokens.mp h
  · cases op with
    | fail e value next => cases next <;> simp_all [Op.holds, Token.for]
    | cancel e next => cases next <;> simp_all [Op.holds, Token.for]
    | _ => simp_all [Op.holds, Token.for]
  · simpa using State.mem_holds ht

/-- Whether every queue is empty and every thread waits at the head of its loop. -/
structure Pool.Idle (c : Pool) : Prop where
  documents : c.shared.documents.queue = []
  render : c.shared.render.queue = []
  inference : c.shared.inference.queue = []
  assembly : c.shared.assembly.queue = []
  pending : c.shared.pendingReschedules = []
  waits : ∀ op ∈ c.ops, op.isLoop = true ∨ op = .caller ∨ op = .stop

/-- An idle scheduler owes nobody a call of `schedule_pages`. -/
theorem Pool.Idle.not_owed {c : Pool} {d : RequestId} (idle : c.Idle)
    (waiting : c.shared.Waiting) :
  ¬ c.Owed d
  := by
  have never : ∀ op ∈ c.ops, (∀ t, (d, t) ∉ op.holds) := by
    intro op hop t ht
    obtain hloop | rfl | rfl := idle.waits op hop
    · cases op <;> simp_all [isLoop, Op.holds]
    · simp [Op.holds] at ht
    · simp [Op.holds] at ht
  rintro (h | (h | h) | h | (h | h | h) | (⟨pageCount, h⟩ | h | ⟨failure, h⟩ | h | h) |
    ⟨-, pageNumber, outcome, h⟩)
  · simp [idle.pending] at h
  · exact never _ h .clearing (by simp [Op.holds, Token.for])
  · exact never _ h .scheduling (by simp [Op.holds, Token.for])
  · have hfull := waiting.full (List.ne_nil_of_mem h)
    have hpositive := waiting.positive
    simp only [idle.render, List.length_nil] at hfull
    omega
  · exact never _ h .waking (by simp [Op.holds, Token.for])
  · exact never _ h .setting (by simp [Op.holds, Token.for])
  · exact never _ h .pushing (by simp [Op.holds, Token.for])
  · exact never _ h .announcing (by simp [Op.holds, Token.for])
  · exact never _ h .returning (by simp [Op.holds, Token.for])
  · exact never _ h .returning (by simp [Op.holds, Token.for])
  · exact never _ h .returning (by simp [Op.holds, Token.for])
  · exact never _ h .returning (by simp [Op.holds, Token.for])
  · exact never _ h (.leaving pageNumber) (by simp [Op.holds, Token.for])

/-- No wakeup is lost.  While `stop` has not begun, a document with pages left to schedule
that is cancelled or has credits is owed a call of `schedule_pages`, unless it is live and
that call is under way; so an idle scheduler has no such document. -/
theorem Reachable.no_lost_wakeup {c : Pool} (h : Reachable c)
    (running : c.shared.documents.closed = false) (d : RequestId)
    (unscheduled : (c.shared.requests d).Unscheduled)
    (enabled : (c.shared.requests d).cancelled = true ∨
      0 < (c.shared.requests d).availableSlots) :
  (c.Owed d ∨ (c.shared.requests d).cancelled = false ∧ .scheduleLoop d ∈ c.ops) ∧ ¬ c.Idle
  := by
  have waiting := h.waiting
  have wakeful := h.wakeful d
  have hstopping : c.shared.stopping = false := by
    by_contra hstopping
    have hclosed := (h.orderly.sequenced.stopping (by simpa using hstopping)).1
    simp [running] at hclosed
  have owed : c.Owed d ∨ (c.shared.requests d).cancelled = false ∧ .scheduleLoop d ∈ c.ops := by
    cases hcancelled : (c.shared.requests d).cancelled with
    | true =>
      obtain ⟨t, ht, hwakes⟩ := wakeful.cancelled hstopping unscheduled hcancelled
      exact Or.inl (Pool.owed_of_token waiting ht (Or.inr ⟨hcancelled, hwakes⟩))
    | false =>
      have credited : 0 < (c.shared.requests d).availableSlots := by
        simpa [hcancelled] using enabled
      obtain ⟨t, ht, hwakes | rfl⟩ := wakeful.credited hstopping unscheduled credited
      · exact Or.inl (Pool.owed_of_token waiting ht (Or.inl hwakes))
      · exact Or.inr ⟨rfl, Pool.filling_mem ht⟩
  refine ⟨owed, fun idle => ?_⟩
  obtain owed | ⟨-, hloop⟩ := owed
  · exact idle.not_owed waiting owed
  · simpa [Op.isLoop] using idle.waits _ hloop

/-- A document of two pages, whose first page was released, is owed the second: the
scheduler is about to push it to the pending reschedules. -/
theorem Reachable.no_lost_wakeup_released :
  ∃ c : Pool, c.shared.documents.closed = false ∧
    (c.shared.requests 0).nextPageToSchedule = 2 ∧ (c.shared.requests 0).availableSlots = 1 ∧
    (c.Owed 0 ∨ (c.shared.requests 0).cancelled = false ∧ .scheduleLoop 0 ∈ c.ops) ∧ ¬ c.Idle
  := by
  have run : ThreadPool.Reaches Exec (Pool.start smallOptions false 1) _ := .refl
  have run := run.andThen 5 (.caller (.submit {} (by decide)))
  have run := run.andThen 5 (.caller (.submitPush rfl))
  have run := run.andThen 0 (.opening (.popDocument rfl))
  have run := run.andThen 0 (.opening (.openDocument rfl))
  have run := run.andThen 0 (.opening (.openSource rfl))
  have run := run.andThen 0 (.opening (@OpenExec.countPages _ 0 2 1 2 rfl))
  have run := run.andThen 0 (.opening (.publishPages rfl))
  have run := run.andThen 0 (.opening .callOnDocument)
  have run := run.andThen 0 (.opening .onDocumentReturns)
  have run := run.andThen 0 (.request (.queueReschedule rfl))
  have run := run.andThen 0 (.request (.setPending rfl))
  have run := run.andThen 0 (.request (.pushPending rfl))
  have run := run.andThen 1 (.schedule (.popReschedule rfl rfl))
  have run := run.andThen 1 (.schedule .clearPending)
  have run := run.andThen 1 (.schedule (.schedulePages (d := 0) rfl rfl (by decide) rfl))
  have run := run.andThen 1 (.schedule (.schedulePage (d := 0) (by decide) (by decide) rfl))
  have run := run.andThen 1 (.schedule (.scheduled (d := 0) (Or.inl rfl)))
  have run := run.andThen 5 (.caller (.ticketRelease 0 1 rfl))
  have run := run.andThen 5 (.request (.releaseSlots Nat.one_ne_zero rfl))
  have run := run.andThen 5 (.request (.addSlots rfl))
  exact ⟨_, rfl, rfl, rfl, Reachable.no_lost_wakeup ⟨smallOptions, false, 1, run⟩ rfl 0
    ⟨rfl, by decide, by decide, rfl⟩ (Or.inr (by decide))⟩

end GRParse.Scheduler
