import Mathlib.Data.Finset.Card

/-!
# Walks that consume

A walk that goes on from a node only when it consumes the node ends, whatever the graph: each step
down takes a node from those that are left.  What its operations do to the state is a relation
between the state before and the state after; one that is reflexive and transitive holds between the
first state and the last.
-/

namespace Consuming

open Finset

/-! ### Steps -/

section

variable {σ α : Type} {R : σ → σ → Prop}

/-- A step ends, and a relation leads from the state to the one it ends in. -/
def Leads (R : σ → σ → Prop) (s : σ) (result : Option σ) : Prop :=
  ∃ s', result = some s' ∧ R s s'

theorem Leads.some {s s' : σ} (h : R s s') :
  Leads R s (some s')
  := ⟨s', rfl, h⟩

theorem Leads.mono {S : σ → σ → Prop} {s t : σ} {result : Option σ} (h : Leads R s result)
    (hmono : ∀ s', R s s' → S t s') :
  Leads S t result
  := by
  obtain ⟨s', hresult, hs'⟩ := h
  exact ⟨s', hresult, hmono s' hs'⟩

theorem Leads.bind (htrans : ∀ s s' s'', R s s' → R s' s'' → R s s'') {s : σ} {result : Option σ}
    {f : σ → Option σ} (h : Leads R s result) (hf : ∀ s', R s s' → Leads R s' (f s')) :
  Leads R s (result.bind f)
  := by
  obtain ⟨s', rfl, hs'⟩ := h
  exact (hf s' hs').mono fun s'' => htrans s s' s'' hs'

/-- A loop ends when its rounds do. -/
theorem Leads.foldlM (hrefl : ∀ s, R s s) (htrans : ∀ s s' s'', R s s' → R s' s'' → R s s'')
    {step : σ → α → Option σ} {l : List α} {s : σ}
    (h : ∀ a ∈ l, ∀ s', R s s' → Leads R s' (step s' a)) :
  Leads R s (l.foldlM step s)
  := by
  induction l generalizing s with
  | nil => exact .some (hrefl s)
  | cons a l ih =>
    obtain ⟨hhead, htail⟩ := List.forall_mem_cons.mp h
    rw [List.foldlM_cons]
    apply (hhead s (hrefl s)).bind htrans
    intro s' hs'
    apply ih
    intro b hb s'' hs''
    exact htail b hb s'' (htrans s s' s'' hs' hs'')

end

/-! ### What is left -/

section

variable {α : Type} [DecidableEq α]

/-- How many nodes are left to consume. -/
def left (nodes consumed : Finset α) : ℕ :=
  (nodes \ consumed).card

variable {nodes consumed consumed' : Finset α}

theorem left_le (h : consumed ⊆ consumed') :
  left nodes consumed' ≤ left nodes consumed
  := card_le_card (sdiff_subset_sdiff (Finset.Subset.refl _) h)

theorem left_insert_lt {node : α} (hnode : node ∈ nodes) (h : node ∉ consumed) :
  left nodes (insert node consumed) < left nodes consumed
  := by
  apply card_lt_card
  rw [ssubset_iff_of_subset
    (sdiff_subset_sdiff (Finset.Subset.refl _) (subset_insert _ _))]
  use node, mem_sdiff.mpr ⟨hnode, h⟩
  intro hmem
  exact (mem_sdiff.mp hmem).2 (mem_insert_self _ _)

theorem left_le_card :
  left nodes consumed ≤ nodes.card
  := card_le_card sdiff_subset

end

end Consuming
