import Mathlib.Data.Fintype.Card

/-!
# Visiting a graph

A walk over a finite graph that enters each node once visits the nodes that can be reached.  A
flood marks the neighbours of a node when it looks at it; over a symmetric relation, flooding from
one seed after another splits the nodes into their connected components.
-/

namespace Visit

open List

variable {n : ℕ} (next : Fin n → List (Fin n))

/-- The nodes that are seen when the walk has emptied the stack. -/
def visit (seen : Finset (Fin n)) : List (Fin n) → Finset (Fin n)
  | [] => seen
  | node :: stack =>
    if node ∈ seen then visit seen stack
    else visit (insert node seen) (next node ++ stack)
termination_by stack => (n - seen.card, stack.length)
decreasing_by
  · apply Prod.Lex.right
    exact Nat.lt_succ_self _
  · rename_i hnode
    apply Prod.Lex.left
    have hcard := Finset.card_insert_of_notMem hnode
    have hle := card_finset_fin_le (insert node seen)
    omega

variable {next}

/-! ### Floods -/

variable (adjacent : Fin n → Fin n → Bool)

/-- The neighbours of a node that are not visited yet. -/
def fresh (visited : Finset (Fin n)) (node : Fin n) : List (Fin n) :=
  (List.finRange n).filter fun other => other ∉ visited ∧ adjacent node other

theorem card_union_fresh (visited : Finset (Fin n)) (node : Fin n) :
  (visited ∪ (fresh adjacent visited node).toFinset).card =
    visited.card + (fresh adjacent visited node).length
  := by
  have hnodup : (fresh adjacent visited node).Nodup := (nodup_finRange n).filter _
  rw [Finset.card_union_of_disjoint, toFinset_card_of_nodup hnodup]
  rw [Finset.disjoint_left]
  intro other hother hfresh
  rw [mem_toFinset, fresh, mem_filter] at hfresh
  simp [hother] at hfresh

/-- The visited nodes and the members of the flood, when the pending nodes are looked at. -/
def flood (visited : Finset (Fin n)) (members : List (Fin n)) :
    List (Fin n) → Finset (Fin n) × List (Fin n)
  | [] => (visited, members)
  | current :: pending =>
    let found := fresh adjacent visited current
    flood (visited ∪ found.toFinset) (members ++ found) (found.reverse ++ pending)
termination_by pending => n - visited.card + pending.length
decreasing_by
  have hcard := card_union_fresh adjacent visited current
  have hle := card_finset_fin_le (visited ∪ (fresh adjacent visited current).toFinset)
  simp only [List.length_append, List.length_reverse, List.length_cons]
  omega

variable {adjacent}

/-- The nodes that a node is connected with. -/
def Connected (adjacent : Fin n → Fin n → Bool) : Fin n → Fin n → Prop :=
  Relation.ReflTransGen fun a b => adjacent a b

theorem Connected.symm (symmetric : ∀ a b, adjacent a b = adjacent b a) {a b : Fin n}
    (h : Connected adjacent a b) :
  Connected adjacent b a
  := by
  induction h with
  | refl => exact .refl
  | tail _ hstep ih => exact .head (by rwa [symmetric]) ih

/-- What holds while a flood is under way: it has marked its members besides the nodes that were
visited before, it is connected with all of them, and it has looked around all that are not
pending. -/
structure Flooding (adjacent : Fin n → Fin n → Bool) (before : Finset (Fin n)) (seed : Fin n)
    (visited : Finset (Fin n)) (members pending : List (Fin n)) : Prop where
  seen : ∀ node, node ∈ visited ↔ node ∈ before ∨ node ∈ members
  seeded : seed ∈ members
  connected : ∀ node ∈ members, Connected adjacent seed node
  waiting : ∀ node ∈ pending, node ∈ members
  looked : ∀ node ∈ members, node ∈ pending ∨ ∀ other, adjacent node other → other ∈ visited

/-- A flood looks at a node. -/
theorem Flooding.step {before visited : Finset (Fin n)} {seed current : Fin n}
    {members pending : List (Fin n)}
    (h : Flooding adjacent before seed visited members (current :: pending)) :
  Flooding adjacent before seed (visited ∪ (fresh adjacent visited current).toFinset)
    (members ++ fresh adjacent visited current)
    ((fresh adjacent visited current).reverse ++ pending)
  := by
  have hfresh : ∀ node, node ∈ fresh adjacent visited current ↔
      node ∉ visited ∧ adjacent current node := by
    intro node
    simp [fresh]
  have hcurrent := h.connected current (h.waiting current mem_cons_self)
  constructor
  case seen =>
    intro node
    rw [Finset.mem_union, h.seen, mem_toFinset, mem_append, or_assoc]
  case seeded => exact mem_append_left _ h.seeded
  case connected =>
    intro node hnode
    obtain hnode | hnode := mem_append.mp hnode
    · exact h.connected node hnode
    · exact hcurrent.tail ((hfresh node).mp hnode).2
  case waiting =>
    intro node hnode
    obtain hnode | hnode := mem_append.mp hnode
    · exact mem_append_right _ (mem_reverse.mp hnode)
    · exact mem_append_left _ (h.waiting node (mem_cons_of_mem _ hnode))
  case looked =>
    intro node hnode
    obtain hnode | hnode := mem_append.mp hnode
    · obtain hpending | hlooked := h.looked node hnode
      · obtain rfl | hpending := mem_cons.mp hpending
        · refine .inr fun other hother => ?_
          rw [Finset.mem_union, mem_toFinset, hfresh]
          by_cases hvisited : other ∈ visited
          · exact .inl hvisited
          · exact .inr ⟨hvisited, hother⟩
        · exact .inl (mem_append_right _ hpending)
      · exact .inr fun other hother => Finset.mem_union_left _ (hlooked other hother)
    · exact .inl (mem_append_left _ (mem_reverse.mpr hnode))

/-- A flood ends when it has looked around all of its members. -/
theorem Flooding.run {before visited : Finset (Fin n)} {seed : Fin n}
    {members pending : List (Fin n)} (h : Flooding adjacent before seed visited members pending) :
  Flooding adjacent before seed (flood adjacent visited members pending).1
    (flood adjacent visited members pending).2 []
  := by
  fun_induction flood adjacent visited members pending with
  | case1 visited members => exact h
  | case2 visited members current pending found ih => exact ih h.step

theorem Flooding.start (before : Finset (Fin n)) (seed : Fin n) :
  Flooding adjacent before seed (insert seed before) [seed] [seed]
  := by
  constructor
  case seen =>
    intro node
    rw [Finset.mem_insert, mem_singleton, or_comm]
  case seeded => exact mem_singleton.mpr rfl
  case connected =>
    intro node hnode
    rw [mem_singleton.mp hnode]
    exact .refl
  case waiting => exact fun _ => id
  case looked => exact fun _ => .inl

theorem mem_visited_flood (adjacent : Fin n → Fin n → Bool) (before : Finset (Fin n))
    (seed node : Fin n) :
  node ∈ (flood adjacent (insert seed before) [seed] [seed]).1 ↔
    node ∈ before ∨ node ∈ (flood adjacent (insert seed before) [seed] [seed]).2
  := (Flooding.start before seed).run.seen node

/-- Nodes that have no neighbours among the others are connected with none of them. -/
theorem mem_of_connected {before : Finset (Fin n)}
    (closed : ∀ a ∈ before, ∀ b, adjacent a b → b ∈ before) {a b : Fin n} (ha : a ∈ before)
    (h : Connected adjacent a b) :
  b ∈ before
  := by
  induction h with
  | refl => exact ha
  | tail _ hstep ih => exact closed _ ih _ hstep

/-- A flood from a seed outside of some components marks the component of the seed. -/
theorem mem_flood_iff (symmetric : ∀ a b, adjacent a b = adjacent b a) {before : Finset (Fin n)}
    (closed : ∀ a ∈ before, ∀ b, adjacent a b → b ∈ before) {seed : Fin n} (hseed : seed ∉ before)
    (node : Fin n) :
  node ∈ (flood adjacent (insert seed before) [seed] [seed]).2 ↔ Connected adjacent seed node
  := by
  have hend := (@Flooding.start _ adjacent before seed).run
  refine ⟨hend.connected node, fun hconnected => ?_⟩
  induction hconnected with
  | refl => exact hend.seeded
  | tail hpath hstep ih =>
    obtain hnone | hlooked := hend.looked _ ih
    · cases hnone
    · refine ((hend.seen _).mp (hlooked _ hstep)).resolve_left fun hbefore => ?_
      exact hseed (mem_of_connected closed hbefore
        (Connected.symm symmetric (Relation.ReflTransGen.tail hpath hstep)))

/-- The components of the nodes, each flooded from the first of its nodes. -/
def floods (adjacent : Fin n → Fin n → Bool) (visited : Finset (Fin n)) :
    List (Fin n) → List (List (Fin n))
  | [] => []
  | seed :: seeds =>
    if seed ∈ visited then floods adjacent visited seeds
    else
      let (visited, members) := flood adjacent (insert seed visited) [seed] [seed]
      members :: floods adjacent visited seeds

/-- Every node is in a component, and a component is what its nodes are connected with. -/
theorem floods_spec (symmetric : ∀ a b, adjacent a b = adjacent b a) {visited : Finset (Fin n)}
    (closed : ∀ a ∈ visited, ∀ b, adjacent a b → b ∈ visited) (seeds : List (Fin n)) :
  (∀ seed ∈ seeds, seed ∈ visited ∨ ∃ members ∈ floods adjacent visited seeds, seed ∈ members) ∧
    ∀ members ∈ floods adjacent visited seeds, ∀ a ∈ members, ∀ b,
      b ∈ members ↔ Connected adjacent a b
  := by
  induction seeds generalizing visited with
  | nil => exact ⟨nofun, nofun⟩
  | cons seed seeds ih =>
    rw [floods]
    split
    case isTrue hseed =>
      obtain ⟨hcover, hcomponents⟩ := ih closed
      refine ⟨fun node hnode => ?_, hcomponents⟩
      obtain rfl | hnode := mem_cons.mp hnode
      · exact .inl hseed
      · exact hcover node hnode
    case isFalse hseed =>
      have hmembers := mem_flood_iff symmetric closed hseed
      have hseen := mem_visited_flood adjacent visited seed
      have hclosed : ∀ a ∈ (flood adjacent (insert seed visited) [seed] [seed]).1, ∀ b,
          adjacent a b → b ∈ (flood adjacent (insert seed visited) [seed] [seed]).1 := by
        intro a ha b hab
        rw [hseen, hmembers] at ha ⊢
        obtain ha | ha := ha
        · exact .inl (closed a ha b hab)
        · exact .inr (ha.tail hab)
      obtain ⟨hcover, hcomponents⟩ := ih hclosed
      refine ⟨fun node hnode => ?_, ?_⟩
      · obtain rfl | hnode := mem_cons.mp hnode
        · exact .inr ⟨_, mem_cons_self, (hmembers node).mpr .refl⟩
        · obtain hvisited | ⟨members, hin, hnode⟩ := hcover node hnode
          · obtain hvisited | hvisited := (hseen node).mp hvisited
            · exact .inl hvisited
            · exact .inr ⟨_, mem_cons_self, hvisited⟩
          · exact .inr ⟨members, mem_cons_of_mem _ hin, hnode⟩
      · intro members hin a ha b
        obtain rfl | hin := mem_cons.mp hin
        · rw [hmembers] at ha ⊢
          constructor
          · exact fun hb => (Connected.symm symmetric ha).trans hb
          · exact fun hb => ha.trans hb
        · exact hcomponents members hin a ha b

end Visit
