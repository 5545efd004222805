import Mathlib.Data.Finset.Card

/-!
# Traversals

A depth-first traversal by names.  A step at a name may change the state, fail, and tells which
names come next; no name is stepped at twice.  The names that come next, and those that later steps
can tell, are all among finitely many, so that a traversal ends.
-/

namespace Traverse

open List

/-- A computation that does not fail, and what is known of its result. -/
def Ensures {ε α : Type} (x : Except ε α) (p : α → Prop) : Prop :=
  ∃ a, x = .ok a ∧ p a

section Ensures

variable {ε α β : Type} {p q : α → Prop} {r : β → Prop}

theorem ok_bind (a : α) (f : α → Except ε β) :
  (Except.ok a >>= f) = f a
  := rfl

theorem error_bind (fault : ε) (f : α → Except ε β) :
  (Except.error fault >>= f) = .error fault
  := rfl

variable {f : α → Except ε β} {x : Except ε α}

theorem bind_eq_ok {b : β} :
  (x >>= f) = .ok b ↔ ∃ a, x = .ok a ∧ f a = .ok b
  := by
  cases x with
  | error fault => simp [error_bind]
  | ok a => simp [ok_bind]

theorem Ensures.pure {a : α} (h : p a) :
  Ensures (Except.ok a : Except ε α) p
  := ⟨a, rfl, h⟩

/-- What follows a computation that does not fail does not fail. -/
theorem Ensures.bind (h : Ensures x p) (hf : ∀ a, p a → Ensures (f a) r) :
  Ensures (x >>= f) r
  := by
  obtain ⟨a, rfl, ha⟩ := h
  exact hf a ha

theorem Ensures.mono (h : Ensures x p) (hpq : ∀ a, p a → q a) :
  Ensures x q
  := by
  obtain ⟨a, rfl, ha⟩ := h
  exact ⟨a, rfl, hpq a ha⟩

theorem Ensures.of_eq {a : α} (h : Ensures x p) (heq : x = .ok a) :
  p a
  := by
  obtain ⟨b, rfl, hb⟩ := h
  cases heq
  exact hb

/-- A loop whose steps do not fail keeps an invariant. -/
theorem Ensures.foldlM {σ : Type} {invariant : σ → Prop} {step : σ → α → Except ε σ} {l : List α}
    {s : σ} (hs : invariant s) (hstep : ∀ a ∈ l, ∀ s, invariant s → Ensures (step s a) invariant) :
  Ensures (l.foldlM step s) invariant
  := by
  induction l generalizing s with
  | nil => exact .pure hs
  | cons a l ih =>
    obtain ⟨hhead, htail⟩ := forall_mem_cons.mp hstep
    rw [foldlM_cons]
    exact (hhead s hs).bind fun s' hs' => ih hs' htail

/-- What a loop over a list makes comes from its members. -/
theorem mem_of_mapM {l : List α} {l' : List β} (h : l.mapM f = .ok l') {b : β} (hb : b ∈ l') :
  ∃ a ∈ l, f a = .ok b
  := by
  induction l generalizing l' with
  | nil =>
    cases h
    cases hb
  | cons a l ih =>
    rw [mapM_cons] at h
    obtain ⟨first, hfirst, h⟩ := bind_eq_ok.mp h
    obtain ⟨rest, hrest, h⟩ := bind_eq_ok.mp h
    cases h
    rcases mem_cons.mp hb with rfl | hb
    · exact ⟨a, mem_cons_self .., hfirst⟩
    · obtain ⟨c, hc, hcb⟩ := ih hrest hb
      exact ⟨c, mem_cons_of_mem _ hc, hcb⟩

theorem Ensures.mapM {f : α → Except ε β} {l : List α} (h : ∀ a ∈ l, Ensures (f a) r) :
  Ensures (l.mapM f) fun l' => ∀ b ∈ l', r b
  := by
  induction l with
  | nil => exact .pure fun _ hb => absurd hb not_mem_nil
  | cons a l ih =>
    obtain ⟨hhead, htail⟩ := forall_mem_cons.mp h
    rw [mapM_cons]
    exact hhead.bind fun b hb => (ih htail).bind fun l' hl' =>
      .pure (forall_mem_cons.mpr ⟨hb, hl'⟩)

theorem Ensures.optionMapM {o : Option α} (h : ∀ a ∈ o, Ensures (f a) r) :
  Ensures (o.mapM f) fun o' => ∀ b ∈ o', r b
  := by
  cases o with
  | none => exact .pure fun _ hb => by cases hb
  | some a =>
    obtain ⟨b, hb, hr⟩ := h a rfl
    refine ⟨some b, ?_, fun c hc => ?_⟩
    · simp only [Option.mapM_some, hb]
      rfl
    · cases hc
      exact hr

end Ensures

variable {ε α σ : Type} [DecidableEq α]

/-- A step at a name, and the names that later steps can tell. -/
structure Traversal (ε α σ : Type) where
  step : σ → α → Except ε (σ × List α)
  names : σ → Finset α
  names_subset : ∀ {state a state' next}, step state a = .ok (state', next) →
    names state' ⊆ names state
  next_mem : ∀ {state a state' next}, step state a = .ok (state', next) →
    ∀ b ∈ next, b ∈ names state

namespace Traversal

variable (traversal : Traversal ε α σ)

/-- The names that are left to step at. -/
def left (visited : Finset α) (state : σ) (stack : List α) : Finset α :=
  (traversal.names state ∪ stack.toFinset) \ visited

variable {traversal}

theorem left_subset_of_mem {visited : Finset α} {state : σ} {a : α} {rest : List α} :
  traversal.left visited state rest ⊆ traversal.left visited state (a :: rest)
  := by
  apply Finset.sdiff_subset_sdiff _ (subset_refl _)
  rw [toFinset_cons]
  exact Finset.union_subset_union (subset_refl _) (Finset.subset_insert _ _)

/-- A step leaves fewer names. -/
theorem card_left_lt {visited : Finset α} {state state' : σ} {a : α} {next rest : List α}
    (ha : a ∉ visited) (hstep : traversal.step state a = .ok (state', next)) :
  (traversal.left (insert a visited) state' (next ++ rest)).card <
    (traversal.left visited state (a :: rest)).card
  := by
  apply Finset.card_lt_card
  have hsubset : traversal.left (insert a visited) state' (next ++ rest) ⊆
      traversal.left visited state (a :: rest) := by
    intro b hb
    obtain ⟨hname, hfresh⟩ := Finset.mem_sdiff.mp hb
    refine Finset.mem_sdiff.mpr ⟨?_, fun h => hfresh (Finset.mem_insert_of_mem h)⟩
    rw [Finset.mem_union, mem_toFinset, mem_append] at hname
    rw [Finset.mem_union, mem_toFinset, mem_cons]
    rcases hname with hname | hnext | hrest
    · exact .inl (traversal.names_subset hstep hname)
    · exact .inl (traversal.next_mem hstep b hnext)
    · exact .inr (.inr hrest)
  refine (Finset.ssubset_iff_of_subset hsubset).mpr ⟨a, ?_, ?_⟩
  · simp [left, ha]
  · simp [left]

variable (traversal) in
/-- The traversal of the names on a stack, the first one on top. -/
def run (visited : Finset α) (state : σ) : List α → Except ε σ
  | [] => .ok state
  | a :: rest =>
    if a ∈ visited then run visited state rest
    else
      match _hstep : traversal.step state a with
      | .error fault => .error fault
      | .ok (state', next) => run (insert a visited) state' (next ++ rest)
termination_by stack => ((traversal.left visited state stack).card, stack.length)
decreasing_by
  · have hsubset : traversal.left visited state rest ⊆ traversal.left visited state (a :: rest) :=
      left_subset_of_mem
    rcases (Finset.card_le_card hsubset).lt_or_eq with hlt | heq
    · exact Prod.Lex.left _ _ hlt
    · rw [heq]
      exact Prod.Lex.right _ (Nat.lt_succ_self _)
  · exact Prod.Lex.left _ _ (card_left_lt ‹_› _hstep)

/-- A traversal does not fail when no step does: the steps keep an invariant of the state, and a
property of the names. -/
theorem run_ensures {invariant : σ → Prop} {good : α → Prop}
    (hstep : ∀ state a, invariant state → good a →
      Ensures (traversal.step state a) fun result =>
        invariant result.1 ∧ ∀ b ∈ result.2, good b)
    (visited : Finset α) (state : σ) (stack : List α) (hstate : invariant state)
    (hstack : ∀ a ∈ stack, good a) :
  Ensures (traversal.run visited state stack) invariant
  := by
  fun_induction run traversal visited state stack with
  | case1 visited state => exact .pure hstate
  | case2 visited state a rest _ ih =>
    exact ih hstate (forall_mem_cons.mp hstack).2
  | case3 visited state a rest _ fault hfault =>
    obtain ⟨_, hok, -⟩ := hstep state a hstate (forall_mem_cons.mp hstack).1
    rw [hfault] at hok
    cases hok
  | case4 visited state a rest _ state' next hok ih =>
    obtain ⟨ha, hrest⟩ := forall_mem_cons.mp hstack
    obtain ⟨hstate', hnext⟩ := (hstep state a hstate ha).of_eq hok
    apply ih hstate'
    intro b hb
    rcases mem_append.mp hb with hb | hb
    · exact hnext b hb
    · exact hrest b hb

end Traversal

end Traverse
