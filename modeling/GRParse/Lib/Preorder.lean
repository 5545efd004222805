import Mathlib.Data.Finset.Card

/-!
# Ranks of graphs

A graph whose nodes refer to finitely many nodes has no node below itself exactly when its nodes have
ranks that fall along the references.
-/

namespace Preorder

/-- A graph whose nodes refer to finitely many nodes in all. -/
structure Graph (α : Type) where
  next : α → List α
  nodes : Finset α
  closed : ∀ a, ∀ b ∈ next a, b ∈ nodes

variable {α : Type}

/-- No node is below itself. -/
def Graph.Acyclic (graph : Graph α) : Prop :=
  ∀ a, ¬ Relation.TransGen (fun a b => b ∈ graph.next a) a a

/-- What a node refers to is of a lower rank, when no node is below itself: the rank counts the nodes
below. -/
theorem Graph.Acyclic.exists_rank {graph : Graph α} (h : graph.Acyclic) :
  ∃ rank : α → ℕ, (∀ a, rank a ≤ graph.nodes.card) ∧ ∀ a, ∀ b ∈ graph.next a, rank b < rank a
  := by
  classical
  use fun a => (graph.nodes.filter (Relation.TransGen (fun a b => b ∈ graph.next a) a)).card
  constructor
  · intro a
    exact Finset.card_filter_le _ _
  · intro a b hb
    apply Finset.card_lt_card
    rw [Finset.ssubset_iff_of_subset]
    · use b
      simp only [Finset.mem_filter]
      exact ⟨⟨graph.closed a b hb, .single hb⟩, fun hloop => h b hloop.2⟩
    · intro c hc
      rw [Finset.mem_filter] at hc ⊢
      exact ⟨hc.1, .head hb hc.2⟩

/-- No node is below itself, when what it refers to is of a lower rank. -/
theorem Graph.acyclic_of_rank {graph : Graph α} (rank : α → ℕ)
    (h : ∀ a, ∀ b ∈ graph.next a, rank b < rank a) :
  graph.Acyclic
  := by
  have hbelow (a b : α) (hab : Relation.TransGen (fun a b => b ∈ graph.next a) a b) :
      rank b < rank a := by
    induction hab with
    | single hstep => exact h _ _ hstep
    | tail _ hstep ih => exact (h _ _ hstep).trans ih
  intro a hloop
  exact lt_irrefl _ (hbelow a a hloop)

end Preorder
