import Mathlib.Data.List.Nodup
import Mathlib.Data.List.Perm.Subperm

/-!
# Worklists

A worklist is a stack of nodes: the node on top is visited, and the nodes that follow it are
pushed in its place.  `sweep` is the order in which the nodes are visited, `none` when the
fuel runs out first.

A sweep that ends visits the nodes that can be reached, however often each is met.  It ends
on a forest, where every node follows at most one other: there no node is met twice.
-/

namespace Worklist

open List

variable {α : Type} (next : α → List α)

/-- The nodes visited, in order; the first of `pending` is on top of the stack. -/
def sweep : ℕ → List α → Option (List α)
  | _, [] => some []
  | 0, _ :: _ => none
  | fuel + 1, node :: pending =>
    (sweep fuel ((next node).reverse ++ pending)).map (node :: ·)

/-- A node can be reached from another along `next`. -/
abbrev Reaches : α → α → Prop :=
  Relation.ReflTransGen fun node child => child ∈ next node

variable {next}

/-- What is reached from a node is the node, or is reached from one that follows it. -/
theorem reaches_iff (node : α) {target : α} :
  Reaches next node target ↔
    target = node ∨ ∃ child ∈ next node, Reaches next child target
  := by
  constructor
  · intro h
    cases h.cases_head with
    | inl heq => exact Or.inl heq.symm
    | inr hstep =>
      obtain ⟨child, hchild, hreach⟩ := hstep
      exact Or.inr ⟨child, hchild, hreach⟩
  · rintro (rfl | ⟨child, hchild, hreach⟩)
    · exact .refl
    · exact .head hchild hreach

/-- A sweep that ends visits what can be reached from the stack, and nothing else. -/
theorem mem_of_sweep {fuel : ℕ} {pending visited : List α}
    (h : sweep next fuel pending = some visited) (target : α) :
  target ∈ visited ↔ ∃ node ∈ pending, Reaches next node target
  := by
  induction fuel generalizing pending visited with
  | zero =>
    cases pending with
    | nil =>
      obtain rfl := Option.some.inj h
      simp
    | cons node pending => cases h
  | succ fuel ih =>
    cases pending with
    | nil =>
      obtain rfl := Option.some.inj h
      simp
    | cons node pending =>
      rw [sweep, Option.map_eq_some_iff] at h
      obtain ⟨rest, hrest, rfl⟩ := h
      rw [mem_cons, ih hrest]
      simp only [mem_append, mem_reverse, mem_cons, or_and_right, exists_or,
        exists_eq_left, reaches_iff node, or_assoc]

/-- A sweep over a forest ends.  The nodes on the stack and those `done` are all different,
and what a node of either kind follows is done, so the nodes pushed are new. -/
theorem exists_sweep {nodes : List α}
    (hclosed : ∀ node ∈ nodes, ∀ child ∈ next node, child ∈ nodes)
    (hnodup : ∀ node ∈ nodes, (next node).Nodup)
    (hunique : ∀ node ∈ nodes, ∀ node' ∈ nodes, ∀ child, child ∈ next node →
      child ∈ next node' → node = node')
    {fuel : ℕ} {pending done : List α} (hfuel : nodes.length ≤ done.length + fuel)
    (hdistinct : (done ++ pending).Nodup) (hnodes : ∀ node ∈ done ++ pending, node ∈ nodes)
    (hdone : ∀ node ∈ nodes, ∀ child ∈ next node, child ∈ done ++ pending → node ∈ done) :
  ∃ visited, sweep next fuel pending = some visited
  := by
  induction fuel generalizing pending done with
  | zero =>
    cases pending with
    | nil => exact ⟨[], rfl⟩
    | cons node pending =>
      have hle := (hdistinct.subperm hnodes).length_le
      rw [length_append, length_cons] at hle
      omega
  | succ fuel ih =>
    cases pending with
    | nil => exact ⟨[], rfl⟩
    | cons node pending =>
      have hnode : node ∈ nodes := hnodes node (by simp)
      have hfresh : ∀ child ∈ next node, child ∉ done ++ node :: pending := by
        intro child hchild hmem
        have := hdone node hnode child hchild hmem
        exact disjoint_of_nodup_append hdistinct this mem_cons_self
      have hseen : ∀ seen, seen ∈ (node :: done) ++ ((next node).reverse ++ pending) ↔
          seen ∈ next node ∨ seen ∈ done ++ node :: pending := by
        intro seen
        simp only [mem_append, mem_cons, mem_reverse]
        tauto
      have hdistinct' : ((node :: done) ++ ((next node).reverse ++ pending)).Nodup := by
        rw [(perm_append_comm_assoc _ _ _).nodup_iff]
        apply List.Nodup.append
        · exact nodup_reverse.mpr (hnodup node hnode)
        · exact nodup_middle.mp hdistinct
        · intro child hpushed hold
          apply hfresh child (mem_reverse.mp hpushed)
          exact perm_middle.mem_iff.mpr hold
      obtain ⟨visited, hvisited⟩ := ih (by rw [length_cons]; omega) hdistinct'
        (by
          intro seen hmem
          rcases (hseen seen).mp hmem with hchild | hold
          · exact hclosed node hnode seen hchild
          · exact hnodes seen hold)
        (by
          intro parent hparent child hchild hmem
          rcases (hseen child).mp hmem with hpushed | hold
          · rw [hunique parent hparent node hnode child hchild hpushed]
            exact mem_cons_self
          · exact mem_cons_of_mem _ (hdone parent hparent child hchild hold))
      exact ⟨node :: visited, by rw [sweep, hvisited, Option.map_some]⟩

end Worklist
