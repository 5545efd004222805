import Mathlib.Data.List.Perm.Basic

/-!
# Thread pools

A pool is a list of threads over a shared state.  A thread carries the operations it has
still to run; a step runs the first operation of some thread, which changes the shared
state and is replaced by the operations it unfolds to.  Nothing else is interleaved, so
one operation is one atomic action.

`Config.ops` lists the operations of all threads.  A step replaces one of its members by
others (`Step.ops_perm`), and this is all an invariant has to know about threads.
-/

namespace ThreadPool

variable {Shared Role Op : Type*}

/-- A thread: the role it was started in, and the operations it has still to run. -/
structure Thread (Role Op : Type*) where
  role : Role
  code : List Op

/-- A shared state with the threads that run over it. -/
structure Config (Shared Role Op : Type*) where
  shared : Shared
  threads : List (Thread Role Op)

/-- The operations still to run, of all threads. -/
def Config.ops (c : Config Shared Role Op) : List Op :=
  c.threads.flatMap Thread.code

/-- One step of a pool whose operations run by `exec`: some thread runs its first
operation.  The step is labelled by that operation. -/
inductive Step (exec : Config Shared Role Op → Op → Shared → List Op → Prop) :
    Config Shared Role Op → Op → Config Shared Role Op → Prop where
  | run {c : Config Shared Role Op} {before after : List (Thread Role Op)} {role : Role}
      {op : Op} {rest : List Op} {shared : Shared} {next : List Op}
      (at_thread : c.threads = before ++ ⟨role, op :: rest⟩ :: after)
      (runs : exec c op shared next) :
      Step exec c op ⟨shared, before ++ ⟨role, next ++ rest⟩ :: after⟩

variable {exec : Config Shared Role Op → Op → Shared → List Op → Prop}

/-- A step runs one of the pending operations and puts what it unfolds to in its place;
the other operations stay. -/
theorem Step.ops_perm {c c' : Config Shared Role Op} {op : Op} (h : Step exec c op c') :
  ∃ next rest, exec c op c'.shared next ∧ c.ops.Perm (op :: rest) ∧ c'.ops.Perm (next ++ rest)
  := by
  obtain ⟨at_thread, runs⟩ := h
  rename_i before after role code shared next
  use next, before.flatMap Thread.code ++ (code ++ after.flatMap Thread.code), runs
  constructor
  · have hops : c.ops =
        before.flatMap Thread.code ++ op :: (code ++ after.flatMap Thread.code) := by
      simp [Config.ops, at_thread]
    rw [hops]
    apply List.perm_middle
  · have hops : Config.ops ⟨shared, before ++ ⟨role, next ++ code⟩ :: after⟩ =
        before.flatMap Thread.code ++ (next ++ (code ++ after.flatMap Thread.code)) := by
      simp [Config.ops]
    rw [hops]
    apply List.perm_append_comm_assoc

/-- A step changes one thread, and leaves it its role. -/
theorem Step.thread {c c' : Config Shared Role Op} {op : Op} (h : Step exec c op c') :
  ∃ role rest next, ⟨role, op :: rest⟩ ∈ c.threads ∧ exec c op c'.shared next ∧
    (∀ thread ∈ c'.threads, thread ∈ c.threads ∨ thread = ⟨role, next ++ rest⟩) ∧
    (∀ thread ∈ c.threads, ∃ thread' ∈ c'.threads, thread'.role = thread.role)
  := by
  obtain ⟨at_thread, runs⟩ := h
  rename_i before after role rest shared next
  use role, rest, next
  refine ⟨?_, runs, ?_, ?_⟩
  · simp [at_thread]
  · intro thread hthread
    simp only [at_thread, List.mem_append, List.mem_cons] at hthread ⊢
    tauto
  · intro thread hthread
    simp only [at_thread, List.mem_append, List.mem_cons] at hthread
    obtain hthread | rfl | hthread := hthread
    · use thread
      simp [hthread]
    · use ⟨role, next ++ rest⟩
      simp
    · use thread
      simp [hthread]

/-- The operation a step runs was pending. -/
theorem Step.op_mem {c c' : Config Shared Role Op} {op : Op} (h : Step exec c op c') :
  op ∈ c.ops
  := by
  obtain ⟨next, rest, -, hops, -⟩ := h.ops_perm
  rw [hops.mem_iff]
  apply List.mem_cons_self

/-- A step that runs the first operation of the thread at position `i`. -/
theorem Step.at {c : Config Shared Role Op} (i : ℕ) {role : Role} {op : Op}
    {rest : List Op} {shared : Shared} {next : List Op}
    (at_thread : c.threads[i]? = some ⟨role, op :: rest⟩) (runs : exec c op shared next) :
  Step exec c op ⟨shared, c.threads.set i ⟨role, next ++ rest⟩⟩
  := by
  obtain ⟨hi, hget⟩ := List.getElem?_eq_some_iff.mp at_thread
  rw [List.set_eq_take_append_cons_drop, if_pos hi]
  apply Step.run _ runs
  rw [← hget, List.getElem_cons_drop, List.take_append_drop]

/-- The configurations a pool reaches from `c` by steps that all satisfy `allowed`, a
condition on the configuration a step starts from and the operation it runs. -/
inductive RunsTo (exec : Config Shared Role Op → Op → Shared → List Op → Prop)
    (allowed : Config Shared Role Op → Op → Prop) (c : Config Shared Role Op) :
    Config Shared Role Op → Prop where
  | refl : RunsTo exec allowed c c
  | step {c' c'' : Config Shared Role Op} {op : Op} (run : RunsTo exec allowed c c')
      (legal : allowed c' op) (step : Step exec c' op c'') : RunsTo exec allowed c c''

/-- The configurations a pool reaches from `c`. -/
abbrev Reaches (exec : Config Shared Role Op → Op → Shared → List Op → Prop) :
    Config Shared Role Op → Config Shared Role Op → Prop :=
  RunsTo exec fun _ _ => True

variable {allowed : Config Shared Role Op → Op → Prop} {c₀ c : Config Shared Role Op}

/-- A property of the first configuration that allowed steps keep holds of every
configuration reached. -/
theorem RunsTo.invariant {P : Config Shared Role Op → Prop} (run : RunsTo exec allowed c₀ c)
    (start : P c₀) (keep : ∀ {c c' op}, P c → allowed c op → Step exec c op c' → P c') :
  P c
  := by
  induction run with
  | refl => exact start
  | step _ legal step ih => exact keep ih legal step

/-- A restricted run is a run. -/
theorem RunsTo.reaches (run : RunsTo exec allowed c₀ c) :
  Reaches exec c₀ c
  := by
  induction run with
  | refl => exact .refl
  | step _ _ step ih => exact .step ih trivial step

/-- A run goes on with the first operation of the thread at position `i`. -/
theorem RunsTo.andThen (run : RunsTo exec allowed c₀ c) (i : ℕ) {role : Role} {op : Op}
    {rest : List Op} {shared : Shared} {next : List Op} (runs : exec c op shared next)
    (at_thread : c.threads[i]? = some ⟨role, op :: rest⟩ := by rfl)
    (legal : allowed c op := by trivial) :
  RunsTo exec allowed c₀ ⟨shared, c.threads.set i ⟨role, next ++ rest⟩⟩
  := .step run legal (.at i at_thread runs)

/-- The configurations a pool reaches from `c`, each with what an observer, who starts with
`a`, has noted of the steps. -/
inductive Observes {α : Type*} (exec : Config Shared Role Op → Op → Shared → List Op → Prop)
    (note : α → Config Shared Role Op → Op → Config Shared Role Op → α)
    (c : Config Shared Role Op) (a : α) : Config Shared Role Op → α → Prop where
  | refl : Observes exec note c a c a
  | step {c' c'' : Config Shared Role Op} {op : Op} {b : α}
      (run : Observes exec note c a c' b) (step : Step exec c' op c'') :
      Observes exec note c a c'' (note b c' op c'')

variable {α : Type*} {note : α → Config Shared Role Op → Op → Config Shared Role Op → α} {a b : α}

/-- An observed run is a run. -/
theorem Observes.reaches (run : Observes exec note c₀ a c b) :
  Reaches exec c₀ c
  := by
  induction run with
  | refl => exact .refl
  | step _ step ih => exact .step ih trivial step

/-- A run can be observed. -/
theorem RunsTo.observed (run : Reaches exec c₀ c)
    (note : α → Config Shared Role Op → Op → Config Shared Role Op → α) (a : α) :
  ∃ b, Observes exec note c₀ a c b
  := by
  induction run with
  | refl => exact ⟨a, .refl⟩
  | step _ _ step ih =>
    obtain ⟨b, observed⟩ := ih
    exact ⟨_, observed.step step⟩

/-- What holds at first and is kept by every step from a configuration reached holds of what is
noted. -/
theorem Observes.invariant {P : Config Shared Role Op → α → Prop}
    (run : Observes exec note c₀ a c b) (start : P c₀ a)
    (keep : ∀ {c c' op b}, Reaches exec c₀ c → P c b → Step exec c op c' →
      P c' (note b c op c')) :
  P c b
  := by
  induction run with
  | refl => exact start
  | step run step ih => exact keep run.reaches ih step

/-- An observed run goes on with the first operation of the thread at position `i`. -/
theorem Observes.andThen (run : Observes exec note c₀ a c b) (i : ℕ) {role : Role} {op : Op}
    {rest : List Op} {shared : Shared} {next : List Op} (runs : exec c op shared next)
    (at_thread : c.threads[i]? = some ⟨role, op :: rest⟩ := by rfl) :
  Observes exec note c₀ a ⟨shared, c.threads.set i ⟨role, next ++ rest⟩⟩
    (note b c op ⟨shared, c.threads.set i ⟨role, next ++ rest⟩⟩)
  := .step run (.at i at_thread runs)

end ThreadPool
