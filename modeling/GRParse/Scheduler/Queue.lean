import Mathlib.Data.List.Basic

/-!
# The bounded queue

`BoundedQueue` holds the jobs between two stages.  A push that finds the queue full may
leave a waiter behind, and whichever pop next frees a slot, or the close, hands all
waiters out to be run.  A waiter is kept by what its closure captures.
-/

namespace GRParse.Scheduler

/-- The queue between two stages: jobs of type `α`, waiters capturing an `ω`. -/
structure BoundedQueue (α ω : Type) where
  capacity : ℕ
  queue : List α := []
  spaceWaiters : List ω := []
  closed : Bool := false

namespace BoundedQueue

variable {α ω : Type}

/-- Pushes when there is room.  A full queue records the waiter, a closed one does not;
either way the value is not taken. -/
def tryPush (q : BoundedQueue α ω) (value : α) (onSpace : Option ω) :
    BoundedQueue α ω × Bool :=
  if q.closed then (q, false)
  else if q.capacity ≤ q.queue.length then
    ({ q with spaceWaiters := q.spaceWaiters ++ onSpace.toList }, false)
  else ({ q with queue := q.queue ++ [value] }, true)

/-- What `push` waits for: room, or the end of the queue. -/
def pushReady (q : BoundedQueue α ω) : Prop :=
  q.closed = true ∨ q.queue.length < q.capacity

/-- `push`, once `pushReady` holds: false when the queue was closed. -/
def push (q : BoundedQueue α ω) (value : α) : BoundedQueue α ω × Bool :=
  if q.closed then (q, false)
  else ({ q with queue := q.queue ++ [value] }, true)

/-- `pop` of a queue that is not empty: the value, the waiters to run, and the queue left
behind. -/
def pop (q : BoundedQueue α ω) : Option (α × List ω × BoundedQueue α ω) :=
  match q.queue with
  | [] => none
  | value :: rest => some (value, q.spaceWaiters, { q with queue := rest, spaceWaiters := [] })

/-- `close`: the waiters to run, and the closed queue. -/
def close (q : BoundedQueue α ω) : List ω × BoundedQueue α ω :=
  (q.spaceWaiters, { q with spaceWaiters := [], closed := true })

variable {q q' : BoundedQueue α ω} {value : α}

/-- A pop takes the head and every waiter. -/
theorem pop_eq_some {waiters : List ω} (h : q.pop = some (value, waiters, q')) :
  q.queue = value :: q'.queue ∧ waiters = q.spaceWaiters ∧ q'.spaceWaiters = [] ∧
    q'.closed = q.closed ∧ q'.capacity = q.capacity
  := by
  unfold pop at h
  split at h
  · cases h
  · rename_i first rest hq
    simp only [Option.some.injEq, Prod.mk.injEq] at h
    obtain ⟨rfl, rfl, rfl⟩ := h
    simp [hq]

/-- A pop needs a job. -/
theorem pop_ne_nil {waiters : List ω} (h : q.pop = some (value, waiters, q')) :
  q.queue ≠ []
  := by
  obtain ⟨hq, -⟩ := pop_eq_some h
  simp [hq]

/-- A push that succeeds appends the value. -/
theorem tryPush_eq_true {onSpace : Option ω} (h : q.tryPush value onSpace = (q', true)) :
  q'.queue = q.queue ++ [value] ∧ q'.spaceWaiters = q.spaceWaiters ∧ q.closed = false ∧
    q'.closed = false ∧ q'.capacity = q.capacity ∧ q.queue.length < q.capacity
  := by
  unfold tryPush at h
  split_ifs at h with hclosed hfull
  · cases h
  · cases h
  · obtain ⟨rfl, -⟩ := h
    simp_all

/-- A push that fails leaves the jobs alone; a queue still open was full and has
recorded the waiter. -/
theorem tryPush_eq_false {onSpace : Option ω} (h : q.tryPush value onSpace = (q', false)) :
  q'.queue = q.queue ∧ q'.closed = q.closed ∧ q'.capacity = q.capacity ∧
    (q.closed = true ∧ q'.spaceWaiters = q.spaceWaiters ∨
      q.closed = false ∧ q.capacity ≤ q.queue.length ∧
        q'.spaceWaiters = q.spaceWaiters ++ onSpace.toList)
  := by
  unfold tryPush at h
  split_ifs at h with hclosed hfull
  · obtain ⟨rfl, -⟩ := h
    simp [hclosed]
  · obtain ⟨rfl, -⟩ := h
    simp_all
  · cases h

/-- A push that succeeds appends the value to a queue that was open. -/
theorem push_eq_true (h : q.push value = (q', true)) :
  q'.queue = q.queue ++ [value] ∧ q'.spaceWaiters = q.spaceWaiters ∧ q.closed = false ∧
    q'.closed = false ∧ q'.capacity = q.capacity
  := by
  unfold push at h
  split_ifs at h with hclosed
  · cases h
  · obtain ⟨rfl, -⟩ := h
    simp_all

/-- A push fails only on a closed queue, and changes nothing. -/
theorem push_eq_false (h : q.push value = (q', false)) :
  q' = q ∧ q.closed = true
  := by
  unfold push at h
  split_ifs at h with hclosed
  · obtain ⟨rfl, -⟩ := h
    exact ⟨rfl, hclosed⟩
  · cases h

end BoundedQueue

end GRParse.Scheduler
