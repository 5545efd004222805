import GRParse.Lib.ThreadPool
import Mathlib.Algebra.BigOperators.Group.Multiset.Basic
import Mathlib.Data.Finset.Basic
import Mathlib.Tactic.Abel

/-!
# The resource pool

A pool leases slots, each of which holds a resource once one was built for it.  Any number of
threads acquire leases, move them about, drop them and discard what they lease.  What happens
under the mutex is one operation; releasing a slot and notifying a waiter are two.  The resource
of a slot is touched only by the thread that holds the slot, so to build or to destroy it and to
count it is one operation as well.

Wherever the threads stand, every slot is free, leased, or in the hands of one operation.
-/

namespace GRParse.ResourcePool

open ThreadPool List Prod

/-! ### The pool -/

/-- The pool.  The back of `free_slots_` comes first here, and `waiters` are the waits on
`available_` that no notification has woken.  A lease that holds no slot is not listed. -/
structure State (T : Type) where
  slots : List (Option T)
  freeSlots : List ℕ
  leases : Multiset (ℕ × ℕ) := 0
  waiters : Finset ℕ := ∅
  nextTicket : ℕ := 0
  live : ℕ := 0
  acquires : ℕ := 0
  discards : ℕ := 0

/-- The constructor: no slot is built, and the first one is at the back of the free slots. -/
def State.start (T : Type) (capacity : ℕ) : State T where
  slots := List.replicate capacity none
  freeSlots := List.range capacity

/-- What a thread has still to do.  A lease is named by a number. -/
inductive Op where
  /-- Whatever the code around the pool does next. -/
  | caller
  /-- Assign what `acquire` returns to a lease. -/
  | acquire (lease : ℕ)
  /-- Wait for a free slot. -/
  | blocked (ticket lease : ℕ)
  /-- A slot is taken; its resource may have to be built. -/
  | take (slot lease : ℕ)
  /-- A lease of the slot is assigned to a lease. -/
  | assign (slot lease : ℕ)
  /-- Move a lease into another one. -/
  | moveLease (target source : ℕ)
  /-- `Lease::release`, as the destructor calls it. -/
  | dropLease (lease : ℕ)
  /-- `Lease::discard`. -/
  | discardLease (lease : ℕ)
  /-- `ResourcePool::release`, up to the end of the critical section. -/
  | release (slot : ℕ)
  /-- `notify_one`. -/
  | notify

/-- The operations that the code around the pool has. -/
def Op.isCall : Op → Prop
  | .acquire _ | .moveLease _ _ | .dropLease _ | .discardLease _ => True
  | _ => False

variable {T : Type}

/-- No slot is held by the lease. -/
def State.Empty (s : State T) (lease : ℕ) : Prop :=
  lease ∉ s.leases.map Prod.fst

/-- What an operation does to the pool, and the operations it unfolds to. -/
inductive Exec (s : State T) : Op → State T → List Op → Prop where
  | call {op : Op} (isCall : op.isCall) : Exec s .caller s [op, .caller]
  | acquire {slot lease : ℕ} {rest : List ℕ} (free : s.freeSlots = slot :: rest) :
      Exec s (.acquire lease) { s with freeSlots := rest, acquires := s.acquires + 1 }
        [.take slot lease]
  | wait {lease : ℕ} (free : s.freeSlots = []) :
      Exec s (.acquire lease)
        { s with
          waiters := insert s.nextTicket s.waiters
          nextTicket := s.nextTicket + 1
          acquires := s.acquires + 1 }
        [.blocked s.nextTicket lease]
  /-- A wait may end without a notification. -/
  | awake {ticket lease slot : ℕ} {rest : List ℕ} (free : s.freeSlots = slot :: rest) :
      Exec s (.blocked ticket lease)
        { s with freeSlots := rest, waiters := s.waiters.erase ticket } [.take slot lease]
  | waitAgain {ticket lease : ℕ} (free : s.freeSlots = []) :
      Exec s (.blocked ticket lease) { s with waiters := insert ticket s.waiters }
        [.blocked ticket lease]
  | reuse {slot lease : ℕ} {value : T} (built : s.slots[slot]? = some (some value)) :
      Exec s (.take slot lease) s [.assign slot lease]
  | build {slot lease : ℕ} {value : T} (unbuilt : s.slots[slot]? = some none) :
      Exec s (.take slot lease)
        { s with slots := s.slots.set slot (some value), live := s.live + 1 }
        [.assign slot lease]
  /-- The factory throws, or it returns no resource. -/
  | fail {slot lease : ℕ} (unbuilt : s.slots[slot]? = some none) :
      Exec s (.take slot lease) s [.release slot]
  | assign {slot lease : ℕ} (empty : s.Empty lease) :
      Exec s (.assign slot lease) { s with leases := (lease, slot) ::ₘ s.leases } []
  /-- What the target holds is released first. -/
  | assignOver {slot lease : ℕ} (full : ¬ s.Empty lease) :
      Exec s (.assign slot lease) s [.dropLease lease, .assign slot lease]
  | moveSelf {lease : ℕ} : Exec s (.moveLease lease lease) s []
  | moveOver {target source : ℕ} (other : target ≠ source) (full : ¬ s.Empty target) :
      Exec s (.moveLease target source) s [.dropLease target, .moveLease target source]
  | moveEmpty {target source : ℕ} (other : target ≠ source) (empty : s.Empty target)
      (moved : s.Empty source) : Exec s (.moveLease target source) s []
  | move {target source slot : ℕ} {rest : Multiset (ℕ × ℕ)} (other : target ≠ source)
      (empty : s.Empty target) (held : s.leases = (source, slot) ::ₘ rest) :
      Exec s (.moveLease target source) { s with leases := (target, slot) ::ₘ rest } []
  | dropEmpty {lease : ℕ} (empty : s.Empty lease) : Exec s (.dropLease lease) s []
  | drop {lease slot : ℕ} {rest : Multiset (ℕ × ℕ)} (held : s.leases = (lease, slot) ::ₘ rest) :
      Exec s (.dropLease lease) { s with leases := rest } [.release slot]
  | discardEmpty {lease : ℕ} (empty : s.Empty lease) : Exec s (.discardLease lease) s []
  | discard {lease slot : ℕ} {rest : Multiset (ℕ × ℕ)}
      (held : s.leases = (lease, slot) ::ₘ rest) :
      Exec s (.discardLease lease)
        { s with
          leases := rest
          slots := s.slots.set slot none
          live := s.live - 1
          discards := s.discards + 1 }
        [.release slot]
  | release {slot : ℕ} :
      Exec s (.release slot) { s with freeSlots := slot :: s.freeSlots } [.notify]
  | wake {ticket : ℕ} (waits : ticket ∈ s.waiters) :
      Exec s .notify { s with waiters := s.waiters.erase ticket } []
  | wakeNone (none : s.waiters = ∅) : Exec s .notify s []

/-- Any number of threads over a new pool. -/
def start (T : Type) (capacity threads : ℕ) : Config (State T) Unit Op where
  shared := .start T capacity
  threads := List.replicate threads ⟨(), [.caller]⟩

/-- The configurations that a pool of some capacity reaches under some number of threads. -/
def Reachable (capacity : ℕ) (c : Config (State T) Unit Op) : Prop :=
  ∃ threads, Reaches (fun c => Exec c.shared) (start T capacity threads) c

/-! ### Conservation -/

/-- The slot in the hands of an operation. -/
def Op.slots : Op → Multiset ℕ
  | .take slot _ | .assign slot _ | .release slot => {slot}
  | _ => 0

/-- The slot that an operation is about to lease. -/
def Op.grants : Op → Multiset ℕ
  | .assign slot _ => {slot}
  | _ => 0

/-- An operation that answers for a free slot: a waiter that was woken and will look for it, or
a notification that will wake one. -/
def Op.answers (waiters : Finset ℕ) : Op → Bool
  | .blocked ticket _ => ticket ∉ waiters
  | .notify => true
  | _ => false

/-- Every slot is free, leased or in the hands of one operation, a leased slot is built, the live
count is the number of slots that are built, and unless nobody waits, every free slot has a
waiter that was woken or is about to be. -/
structure Conserved (capacity : ℕ) (s : State T) (ops : List Op) : Prop where
  partition : (s.freeSlots : Multiset ℕ) + s.leases.map Prod.snd + (ops.map Op.slots).sum =
    Multiset.range capacity
  leases : (s.leases.map Prod.fst).Nodup
  built : ∀ slot ∈ s.leases.map Prod.snd + (ops.map Op.grants).sum,
    ∃ value, s.slots[slot]? = some (some value)
  size : s.slots.length = capacity
  live : s.live = s.slots.countP Option.isSome
  waiting : ∀ ticket ∈ s.waiters, ∃ lease, .blocked ticket lease ∈ ops
  woken : s.waiters = ∅ ∨ s.freeSlots.length ≤ ops.countP (Op.answers s.waiters)

variable {capacity : ℕ} {s s' : State T} {op : Op} {ops next : List Op}

theorem Conserved.perm {ops' : List Op} (h : Conserved capacity s ops) (hperm : ops.Perm ops') :
  Conserved capacity s ops'
  where
    partition := by rw [← (hperm.map _).sum_eq, h.partition]
    leases := h.leases
    built := by
      rw [← (hperm.map Op.grants).sum_eq]
      exact h.built
    size := h.size
    live := h.live
    waiting ticket hticket := by
      obtain ⟨lease, hmem⟩ := h.waiting ticket hticket
      use lease, hperm.mem_iff.mp hmem
    woken := by rw [← hperm.countP_eq]; exact h.woken

theorem Op.slots_of_isCall (h : op.isCall) :
  op.slots = 0
  := by
  cases op <;> first | rfl | cases h

theorem Op.grants_of_isCall (h : op.isCall) :
  op.grants = 0
  := by
  cases op <;> first | rfl | cases h

theorem Op.answers_of_isCall {waiters : Finset ℕ} (h : op.isCall) :
  op.answers waiters = false
  := by
  cases op <;> first | rfl | cases h

theorem Op.grants_le_slots (op : Op) :
  op.grants ≤ op.slots
  := by
  cases op <;> simp [grants, slots]

theorem Op.sum_grants_le (ops : List Op) :
  (ops.map grants).sum ≤ (ops.map slots).sum
  := by
  induction ops with
  | nil => exact le_rfl
  | cons op ops ih =>
    rw [map_cons, map_cons, sum_cons, sum_cons]
    exact add_le_add op.grants_le_slots ih

/-- A slot stays where it is or goes from one place to another. -/
theorem Exec.partition (h : Exec s op s' next) :
  (s'.freeSlots : Multiset ℕ) + s'.leases.map Prod.snd + (next.map Op.slots).sum =
    s.freeSlots + s.leases.map Prod.snd + op.slots
  := by
  cases h
  case call isCall =>
    have hcaller : Op.caller.slots = 0 := rfl
    simp [Op.slots_of_isCall isCall, hcaller]
  case acquire free | awake free =>
    simp only [free, Op.slots, ← Multiset.cons_coe, ← Multiset.singleton_add, map_cons,
      map_nil, sum_singleton, add_zero]
    abel
  case wait free | waitAgain free => simp [Op.slots, free]
  case assign => simp [Op.slots, add_comm, add_left_comm]
  case move held | drop held | discard held =>
    simp [held, Op.slots, add_comm, add_left_comm]
  case release =>
    simp only [Op.slots, ← Multiset.cons_coe, ← Multiset.singleton_add, map_cons,
      map_nil, sum_singleton, add_zero]
    abel
  all_goals simp [Op.slots]

/-- A lease that holds a slot holds one. -/
theorem Exec.leases (h : Exec s op s' next) (hs : (s.leases.map Prod.fst).Nodup) :
  (s'.leases.map Prod.fst).Nodup
  := by
  cases h
  case assign empty =>
    rw [Multiset.map_cons, Multiset.nodup_cons]
    exact ⟨empty, hs⟩
  case move other empty held =>
    rw [State.Empty, held, Multiset.map_cons, Multiset.mem_cons, not_or] at empty
    rw [held, Multiset.map_cons, Multiset.nodup_cons] at hs
    rw [Multiset.map_cons, Multiset.nodup_cons]
    exact ⟨empty.2, hs.2⟩
  case drop held | discard held =>
    rw [held, Multiset.map_cons, Multiset.nodup_cons] at hs
    exact hs.2
  all_goals exact hs

/-- The slots that are leased, or about to be, are built.  `others` are those that the other
operations are about to lease. -/
theorem Exec.built {others : Multiset ℕ} (h : Exec s op s' next)
    (hs : ∀ slot ∈ s.leases.map Prod.snd + op.grants + others,
      ∃ value, s.slots[slot]? = some (some value))
    (hnodup : (s.leases.map Prod.snd + others).Nodup) :
  ∀ slot ∈ s'.leases.map Prod.snd + (next.map Op.grants).sum + others,
    ∃ value, s'.slots[slot]? = some (some value)
  := by
  cases h
  case call isCall =>
    have hcaller : Op.caller.grants = 0 := rfl
    simpa [Op.grants_of_isCall isCall, hcaller] using hs
  case assign slot lease empty =>
    simpa [Op.grants, or_comm, or_left_comm, or_assoc] using hs
  case reuse slot lease value built =>
    intro slot' hslot'
    rcases (show slot' = slot ∨ slot' ∈ s.leases.map snd + others by
      simpa [Op.grants, or_comm, or_left_comm, or_assoc] using hslot') with rfl | hold
    · use value
    · apply hs
      simpa [Op.grants] using hold
  case build slot lease value unbuilt =>
    intro slot' hslot'
    by_cases hsame : slot' = slot
    · use value
      rw [hsame, List.getElem?_set_self (List.getElem?_eq_some_iff.mp unbuilt).1]
    · rw [List.getElem?_set_ne (Ne.symm hsame)]
      apply hs
      simpa [Op.grants, hsame] using hslot'
  case discard lease slot rest held =>
    intro slot' hslot'
    rw [held, Multiset.map_cons, Multiset.cons_add, Multiset.nodup_cons] at hnodup
    have hmem : slot' ∈ rest.map snd + others := by simpa [Op.grants] using hslot'
    have hne : slot ≠ slot' := by
      rintro rfl
      exact hnodup.1 hmem
    rw [List.getElem?_set_ne hne]
    apply hs
    rw [held]
    rw [Multiset.map_cons, Multiset.cons_add, Multiset.cons_add]
    exact Multiset.mem_cons_of_mem (by simpa [Op.grants] using hmem)
  all_goals
    intro slot' hslot'
    apply hs
    first
    | simpa [Op.grants] using hslot'
    | simp_all [Op.grants]

/-- A slot is counted when its resource is built and no longer when it is destroyed. -/
theorem Exec.live (h : Exec s op s' next) (hs : s.live = s.slots.countP Option.isSome)
    (hbuilt : ∀ slot ∈ s.leases.map Prod.snd, ∃ value, s.slots[slot]? = some (some value)) :
  s'.live = s'.slots.countP Option.isSome
  := by
  cases h
  case build slot lease value unbuilt =>
    obtain ⟨hlt, hget⟩ := List.getElem?_eq_some_iff.mp unbuilt
    simp [List.countP_set hlt, hget, hs]
  case discard lease slot rest held =>
    obtain ⟨value, hvalue⟩ := hbuilt slot (by simp [held])
    obtain ⟨hlt, hget⟩ := List.getElem?_eq_some_iff.mp hvalue
    simp [List.countP_set hlt, hget, hs]
  all_goals exact hs

theorem Exec.size (h : Exec s op s' next) :
  s'.slots.length = s.slots.length
  := by
  cases h <;> simp

/-- A waiter that no notification has woken is still waiting, or it waits again. -/
theorem Exec.waiting (h : Exec s op s' next) {ticket : ℕ} (hticket : ticket ∈ s'.waiters) :
  (∃ lease, .blocked ticket lease ∈ next) ∨
    ticket ∈ s.waiters ∧ ∀ lease, op ≠ .blocked ticket lease
  := by
  cases h
  case wait lease free =>
    rcases Finset.mem_insert.mp hticket with rfl | hold
    · exact .inl ⟨lease, mem_singleton_self _⟩
    · exact .inr ⟨hold, by simp⟩
  case waitAgain other lease free =>
    rcases Finset.mem_insert.mp hticket with rfl | hold
    · exact .inl ⟨lease, mem_singleton_self _⟩
    · by_cases hsame : ticket = other
      · exact .inl ⟨lease, by simp [hsame]⟩
      · exact .inr ⟨hold, by simp [Ne.symm hsame]⟩
  case awake =>
    obtain ⟨hne, hold⟩ := Finset.mem_erase.mp hticket
    exact .inr ⟨hold, by simp [Ne.symm hne]⟩
  case wake => exact .inr ⟨Finset.mem_of_mem_erase hticket, by simp⟩
  all_goals exact .inr ⟨hticket, by simp⟩

/-- With fewer waiters asleep, the operations that answered still do. -/
theorem countP_answers_mono {waiters waiters' : Finset ℕ} (h : waiters' ⊆ waiters)
    (ops : List Op) :
  ops.countP (Op.answers waiters) ≤ ops.countP (Op.answers waiters')
  := by
  apply countP_mono_left
  intro op _ hop
  cases op <;> simp_all [Op.answers]
  exact fun hmem => hop (h hmem)

/-- A waiter that is woken answers from now on. -/
theorem countP_answers_erase {waiters : Finset ℕ} {ticket lease : ℕ} {ops : List Op}
    (hticket : ticket ∈ waiters) (hop : .blocked ticket lease ∈ ops) :
  ops.countP (Op.answers waiters) < ops.countP (Op.answers (waiters.erase ticket))
  := by
  obtain ⟨before, after, rfl⟩ := append_of_mem hop
  have hbefore := countP_answers_mono (waiters.erase_subset ticket) before
  have hafter := countP_answers_mono (waiters.erase_subset ticket) after
  simp only [countP_append, countP_cons, Op.answers, hticket, Finset.mem_erase]
  simp
  omega

/-- Unless nobody waits, every free slot still has an operation that answers for it. -/
theorem Exec.woken (h : Exec s op s' next)
    (hwaiting : ∀ ticket ∈ s.waiters, ∃ lease, .blocked ticket lease ∈ op :: ops)
    (hs : s.waiters = ∅ ∨ s.freeSlots.length ≤ (op :: ops).countP (Op.answers s.waiters)) :
  s'.waiters = ∅ ∨ s'.freeSlots.length ≤ (next ++ ops).countP (Op.answers s'.waiters)
  := by
  cases h
  case wait free | waitAgain free => exact .inr (by simp [free])
  case awake ticket lease slot rest free =>
    have hmono := countP_answers_mono (s.waiters.erase_subset ticket) ops
    rcases hs with hnone | hfree
    · exact .inl (by simp [hnone])
    · right
      rw [free, countP_cons, length_cons] at hfree
      have htaken : (Op.take slot lease).answers (s.waiters.erase ticket) = false := rfl
      rw [singleton_append, countP_cons_of_neg (by simp [htaken])]
      change rest.length ≤ ops.countP (Op.answers (s.waiters.erase ticket))
      by_cases hwaits : ticket ∈ s.waiters <;> simp [Op.answers, hwaits] at hfree <;> omega
  case wake ticket waits =>
    obtain ⟨lease, hop⟩ := hwaiting ticket waits
    have hlt := countP_answers_erase waits (by simpa using hop)
    rcases hs with hnone | hfree
    · simp [hnone] at waits
    · right
      rw [countP_cons] at hfree
      simp only [Op.answers, if_true, nil_append] at hfree ⊢
      omega
  case wakeNone none => exact .inl none
  case call isCall =>
    have hcaller : Op.caller.answers s.waiters = false := rfl
    have hcall : ∀ waiters, _ := fun waiters => @Op.answers_of_isCall _ waiters isCall
    simpa [countP_cons, hcall, hcaller] using hs
  case acquire free =>
    rw [free] at hs
    apply hs.imp_right
    intro hfree
    simp [Op.answers] at hfree ⊢
    omega
  all_goals
    apply hs.imp_right
    intro hfree
    simpa [countP_cons, Op.answers] using hfree

/-- Every operation conserves the slots. -/
theorem Conserved.step (hs : Conserved capacity s (op :: ops)) (h : Exec s op s' next) :
  Conserved capacity s' (next ++ ops)
  := by
  have hpartition : (s.freeSlots : Multiset ℕ) + s.leases.map snd + op.slots +
      (ops.map Op.slots).sum = Multiset.range capacity := by
    rw [← hs.partition, map_cons, sum_cons, add_assoc _ op.slots]
  have hbuilt : ∀ slot ∈ s.leases.map snd + op.grants + (ops.map Op.grants).sum,
      ∃ value, s.slots[slot]? = some (some value) := by
    have := hs.built
    rwa [map_cons, sum_cons, ← add_assoc] at this
  constructor
  case partition =>
    rw [map_append, sum_append, ← add_assoc, h.partition, hpartition]
  case leases => exact h.leases hs.leases
  case built =>
    rw [map_append, sum_append, ← add_assoc]
    apply h.built hbuilt
    apply Multiset.nodup_of_le _ (Multiset.nodup_range capacity)
    calc s.leases.map snd + (ops.map Op.grants).sum
        ≤ s.leases.map snd + (ops.map Op.slots).sum :=
          Multiset.add_le_add_left (Op.sum_grants_le ops)
      _ ≤ (s.freeSlots : Multiset ℕ) + op.slots +
          (s.leases.map snd + (ops.map Op.slots).sum) := Multiset.le_add_left _ _
      _ = Multiset.range capacity := by
        rw [← hpartition]
        abel
  case size => rw [h.size, hs.size]
  case live =>
    apply h.live hs.live
    intro slot hslot
    apply hbuilt
    rw [add_assoc]
    exact Multiset.mem_add.mpr (.inl hslot)
  case waiting =>
    intro ticket hticket
    rcases h.waiting hticket with ⟨lease, hnext⟩ | ⟨hold, hother⟩
    · exact ⟨lease, mem_append_left _ hnext⟩
    · obtain ⟨lease, hop⟩ := hs.waiting ticket hold
      use lease
      rcases mem_cons.mp hop with heq | hmem
      · exact absurd heq.symm (hother lease)
      · exact mem_append_right _ hmem
  case woken => exact h.woken hs.waiting hs.woken

/-- A new pool has all its slots free. -/
theorem conserved_start (T : Type) (capacity threads : ℕ) :
  Conserved capacity (State.start T capacity) (start T capacity threads).ops
  := by
  have hops : ∀ op ∈ (start T capacity threads).ops, op = .caller := by
    simp +contextual [Config.ops, start]
  have hsum : ∀ {f : Op → Multiset ℕ}, f .caller = 0 →
      ((start T capacity threads).ops.map f).sum = 0 := by
    intro f hf
    apply sum_eq_zero
    intro slots hslots
    obtain ⟨op, hop, rfl⟩ := mem_map.mp hslots
    rw [hops op hop, hf]
  constructor
  case partition =>
    rw [hsum rfl]
    simp [State.start, ← Multiset.coe_range]
  case leases => exact Multiset.nodup_zero
  case built =>
    rw [hsum rfl]
    simp [State.start]
  case size => exact length_replicate
  case live => simp [State.start, countP_replicate]
  case waiting => simp [State.start]
  case woken => exact .inl rfl

/-- In every reachable state the free slots, the leases and the operations that hold a slot have
all the slots between them, the live count is the number of slots that are built, and every free
slot has a waiter that was woken or is about to be, unless nobody waits. -/
theorem Reachable.conserved {c : Config (State T) Unit Op} (h : Reachable capacity c) :
  Conserved capacity c.shared c.ops
  := by
  obtain ⟨threads, hrun⟩ := h
  apply hrun.invariant (P := fun c => Conserved capacity c.shared c.ops)
  · exact conserved_start T capacity threads
  · intro c c' op hconserved _ hstep
    obtain ⟨next, rest, hexec, hops, hops'⟩ := hstep.ops_perm
    exact ((hconserved.perm hops).step hexec).perm hops'.symm

/-- One thread leases the only slot of a pool, which is built for it. -/
theorem Reachable.conserved_oneLease :
  Conserved 1 ⟨[some ()], [], {(0, 0)}, ∅, 0, 1, 1, 0⟩ [.caller]
  := by
  have hstart : Reaches (fun c => Exec c.shared) (start Unit 1 1) (start Unit 1 1) := .refl
  have hcalled := hstart.andThen 0 (@Exec.call Unit _ (.acquire 0) trivial)
  have htaken := hcalled.andThen 0 (.acquire rfl)
  have hbuilt := htaken.andThen 0 (@Exec.build Unit _ 0 0 () rfl)
  have hleased := hbuilt.andThen 0 (.assign (Multiset.notMem_zero 0))
  exact Reachable.conserved ⟨1, hleased⟩

end GRParse.ResourcePool
