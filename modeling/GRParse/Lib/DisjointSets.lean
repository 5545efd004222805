import Mathlib.Data.Nat.Find
import Mathlib.Logic.Function.Iterate
import Mathlib.Logic.Relation

/-!
# Disjoint sets

A forest gives each element its parent, a root being its own.  `find` goes up to the root and halves
the path on its way, which moves no element to another root.  `union` puts the root of one element
under that of another.  After any unions, two elements have one root just when the united pairs link
them.
-/

namespace DisjointSets

variable {α : Type} [DecidableEq α]

/-- Parents without a cycle: each element is below a root. -/
structure Forest (α : Type) where
  root : α → α
  settles : ∀ a, ∃ k : ℕ, root (root^[k] a) = root^[k] a

namespace Forest

variable (forest : Forest α) (a : α)

/-- How far an element is from its root. -/
def depth : ℕ :=
  Nat.find (forest.settles a)

/-- The root above an element. -/
def rep : α :=
  forest.root^[forest.depth a] a

theorem root_rep : forest.root (forest.rep a) = forest.rep a :=
  Nat.find_spec (forest.settles a)

variable {forest a}

theorem depth_eq_zero (h : forest.root a = a) : forest.depth a = 0 :=
  (Nat.find_eq_zero _).mpr h

theorem rep_of_root (h : forest.root a = a) : forest.rep a = a := by
  rw [rep, depth_eq_zero h]
  rfl

/-- The parent is nearer to the root. -/
theorem depth_root (h : forest.root a ≠ a) :
  forest.depth a = forest.depth (forest.root a) + 1
  := by
  apply le_antisymm
  · apply Nat.find_min'
    exact Nat.find_spec (forest.settles (forest.root a))
  · apply Nat.succ_le_of_lt
    have hpos : forest.depth a ≠ 0 := fun hzero => h ((Nat.find_eq_zero _).mp hzero)
    obtain ⟨k, hk⟩ := Nat.exists_eq_succ_of_ne_zero hpos
    rw [hk, Nat.succ_eq_add_one, Nat.lt_succ_iff]
    apply Nat.find_min'
    have hspec := Nat.find_spec (forest.settles a)
    rw [← depth, hk] at hspec
    exact hspec

theorem depth_root_lt (h : forest.root a ≠ a) : forest.depth (forest.root a) < forest.depth a := by
  rw [depth_root h]
  exact Nat.lt_succ_self _

variable (forest a) in
theorem rep_root : forest.rep (forest.root a) = forest.rep a := by
  by_cases h : forest.root a = a
  · rw [h]
  · rw [rep, rep, depth_root h]
    rfl

/-- What roots keep and parents pass on is told by the root. -/
theorem eq_rep_of {β : Type} {f : α → β} {g : α → β} (hroot : ∀ a, forest.root a = a → f a = g a)
    (hf : ∀ a, f (forest.root a) = f a) (hg : ∀ a, g (forest.root a) = g a) (a : α) :
  f a = g a
  := by
  induction hdepth : forest.depth a using Nat.strong_induction_on generalizing a with
  | _ depth ih =>
    by_cases h : forest.root a = a
    · exact hroot a h
    · rw [← hf, ← hg]
      exact ih _ (hdepth ▸ depth_root_lt h) _ rfl

/-- A height that falls from each element to its parent shows that there is no cycle. -/
theorem settles_of_height {root : α → α} (height : α → ℕ)
    (h : ∀ a, root a ≠ a → height (root a) < height a) (a : α) :
  ∃ k : ℕ, root (root^[k] a) = root^[k] a
  := by
  induction hheight : height a using Nat.strong_induction_on generalizing a with
  | _ bound ih =>
    by_cases hroot : root a = a
    · exact ⟨0, hroot⟩
    · obtain ⟨k, hk⟩ := ih _ (hheight ▸ h a hroot) (root a) rfl
      exact ⟨k + 1, hk⟩

/-! ### Finding -/

variable (forest a)

/-- What a halving makes of the parents is nearer to the root. -/
theorem depth_update_lt {b : α}
    (h : Function.update forest.root a (forest.root (forest.root a)) b ≠ b) :
  forest.depth (Function.update forest.root a (forest.root (forest.root a)) b) < forest.depth b
  := by
  by_cases heq : b = a
  · subst heq
    rw [Function.update_self] at h ⊢
    have hroot : forest.root b ≠ b := fun hroot => h (by rw [hroot, hroot])
    by_cases hparent : forest.root (forest.root b) = forest.root b
    · rw [hparent]
      exact depth_root_lt hroot
    · exact Nat.lt_trans (depth_root_lt hparent) (depth_root_lt hroot)
  · rw [Function.update_of_ne heq] at h ⊢
    exact depth_root_lt h

/-- The forest with an element put under its grandparent. -/
def halve : Forest α where
  root := Function.update forest.root a (forest.root (forest.root a))
  settles := settles_of_height forest.depth fun _ => forest.depth_update_lt a

theorem halve_root_self : (forest.halve a).root a = forest.root (forest.root a) :=
  Function.update_self ..

theorem halve_root_of_ne {b : α} (h : b ≠ a) : (forest.halve a).root b = forest.root b :=
  Function.update_of_ne h ..

/-- A halving makes no root. -/
theorem root_of_root_halve {b : α} (h : (forest.halve a).root b = b) : forest.root b = b := by
  by_cases heq : b = a
  · subst heq
    rw [halve_root_self] at h
    by_contra hroot
    by_cases hparent : forest.root (forest.root b) = forest.root b
    · exact hroot (hparent.symm.trans h)
    · have hlt := Nat.lt_trans (depth_root_lt hparent) (depth_root_lt hroot)
      rw [h] at hlt
      exact Nat.lt_irrefl _ hlt
  · rwa [halve_root_of_ne _ _ heq] at h

theorem rep_root_halve (b : α) : forest.rep ((forest.halve a).root b) = forest.rep b := by
  by_cases heq : b = a
  · subst heq
    rw [halve_root_self, rep_root, rep_root]
  · rw [halve_root_of_ne _ _ heq, rep_root]

/-- A halving moves no element to another root. -/
theorem rep_halve (b : α) : (forest.halve a).rep b = forest.rep b := by
  apply (forest.halve a).eq_rep_of
  · intro b hb
    rw [rep_of_root hb, rep_of_root (forest.root_of_root_halve a hb)]
  · exact rep_root _
  · exact forest.rep_root_halve a

theorem depth_halve_le (b : α) : (forest.halve a).depth b ≤ forest.depth b := by
  induction hdepth : forest.depth b using Nat.strong_induction_on generalizing b with
  | _ depth ih =>
    by_cases h : (forest.halve a).root b = b
    · rw [depth_eq_zero h]
      exact Nat.zero_le _
    · have hlt := forest.depth_update_lt a h
      rw [hdepth] at hlt
      rw [depth_root h]
      exact Nat.succ_le_of_lt (Nat.lt_of_le_of_lt (ih _ hlt _ rfl) hlt)

/-- The root above an element, and the forest with the path to it halved. -/
def find (forest : Forest α) (a : α) : Forest α × α :=
  if forest.root a = a then (forest, a)
  else find (forest.halve a) ((forest.halve a).root a)
termination_by forest.depth a
decreasing_by
  rename_i hroot
  have hhalved : (forest.halve a).root a ≠ a := fun h => hroot (forest.root_of_root_halve a h)
  exact Nat.lt_of_lt_of_le (depth_root_lt hhalved) (forest.depth_halve_le a a)

/-- Finding gives the root, and moves no element to another one. -/
theorem find_spec : (forest.find a).2 = forest.rep a ∧ (forest.find a).1.rep = forest.rep := by
  fun_induction find forest a with
  | case1 forest a h => exact ⟨(rep_of_root h).symm, rfl⟩
  | case2 forest a _ ih =>
    obtain ⟨hrep, hsame⟩ := ih
    rw [hrep, hsame, rep_root]
    exact ⟨forest.rep_halve a a, funext (forest.rep_halve a)⟩

/-! ### Uniting -/

variable {a} in
/-- A root put under another one. -/
def hang {b : α} (ha : forest.root a = a) (hb : forest.root b = b) : Forest α where
  root := Function.update forest.root b a
  settles := by
    apply settles_of_height fun c => if forest.rep c = b then forest.depth c + 1 else forest.depth c
    intro c hc
    by_cases heq : c = b
    · subst heq
      rw [Function.update_self] at hc ⊢
      rw [rep_of_root ha, rep_of_root hb, if_neg hc, if_pos rfl, depth_eq_zero ha]
      exact Nat.succ_pos _
    · rw [Function.update_of_ne heq] at hc ⊢
      rw [rep_root]
      have hlt := depth_root_lt hc
      split
      · exact Nat.succ_lt_succ hlt
      · exact hlt

section

variable {a b : α} (ha : forest.root a = a) (hb : forest.root b = b)

theorem hang_root_self : (forest.hang ha hb).root b = a :=
  Function.update_self ..

theorem hang_root_of_ne {c : α} (h : c ≠ b) : (forest.hang ha hb).root c = forest.root c :=
  Function.update_of_ne h ..

/-- All that were below the root are below the other one. -/
theorem rep_hang (c : α) :
  (forest.hang ha hb).rep c = if forest.rep c = b then a else forest.rep c
  := by
  apply (forest.hang ha hb).eq_rep_of
  · intro c hc
    rw [rep_of_root hc]
    by_cases heq : c = b
    · subst heq
      rw [hang_root_self] at hc
      rw [rep_of_root hb, if_pos rfl, hc]
    · rw [hang_root_of_ne _ _ _ heq] at hc
      rw [rep_of_root hc, if_neg heq]
  · exact rep_root _
  · intro c
    by_cases heq : c = b
    · subst heq
      rw [hang_root_self, rep_of_root ha, rep_of_root hb, if_pos rfl, ite_self]
    · rw [hang_root_of_ne _ _ _ heq, rep_root]

end

/-- A root is found below no other one. -/
theorem root_of_rep_eq {other : Forest α} (h : other.rep = forest.rep) :
  other.root (forest.rep a) = forest.rep a
  := by
  rw [← h]
  exact other.root_rep a

theorem rep_find_find (b : α) : ((forest.find a).1.find b).1.rep = forest.rep :=
  ((forest.find a).1.find_spec b).2.trans (forest.find_spec a).2

theorem find_find_snd (b : α) : ((forest.find a).1.find b).2 = forest.rep b := by
  rw [((forest.find a).1.find_spec b).1, (forest.find_spec a).2]

/-- `root[find(b)] = find(a)`: the right side is found first. -/
def union (a b : α) : Forest α :=
  let above := forest.find a
  let below := above.1.find b
  @hang α _ below.1 above.2 below.2
    (by
      rw [(forest.find_spec a).1]
      exact forest.root_of_rep_eq a (forest.rep_find_find a b))
    (by
      rw [forest.find_find_snd a b]
      exact forest.root_of_rep_eq b (forest.rep_find_find a b))

/-- The elements below one root come under the other one. -/
theorem rep_union (a b c : α) :
  (forest.union a b).rep c = if forest.rep c = forest.rep b then forest.rep a else forest.rep c
  := by
  rw [union, rep_hang, rep_find_find, find_find_snd, (forest.find_spec a).1]

/-! ### Links -/

/-- Two elements have one root just when a relation links them. -/
def Links (forest : Forest α) (r : α → α → Prop) : Prop :=
  ∀ c d, forest.rep c = forest.rep d ↔ Relation.EqvGen r c d

variable {forest} in
/-- A union adds a link. -/
theorem Links.union {r : α → α → Prop} (h : forest.Links r) (a b : α) :
  (forest.union a b).Links fun c d => r c d ∨ c = a ∧ d = b
  := by
  have hold : ∀ {c d}, forest.rep c = forest.rep d →
      Relation.EqvGen (fun c d => r c d ∨ c = a ∧ d = b) c d :=
    fun heq => Relation.EqvGen.mono (fun _ _ hrel => Or.inl hrel) _ _ ((h _ _).mp heq)
  have hlink : Relation.EqvGen (fun c d => r c d ∨ c = a ∧ d = b) a b := .rel _ _ (.inr ⟨rfl, rfl⟩)
  intro c d
  rw [rep_union, rep_union]
  constructor
  · intro heq
    split at heq
    case isTrue hc =>
      split at heq
      case isTrue hd => exact hold (hc.trans hd.symm)
      case isFalse => exact .trans _ _ _ (hold hc) (.trans _ _ _ (.symm _ _ hlink) (hold heq))
    case isFalse =>
      split at heq
      case isTrue hd =>
        exact .trans _ _ _ (hold heq) (.trans _ _ _ hlink (hold hd.symm))
      case isFalse => exact hold heq
  · intro hgen
    induction hgen with
    | rel c d hrel =>
      rcases hrel with hrel | ⟨rfl, rfl⟩
      · rw [(h c d).mpr (.rel _ _ hrel)]
      · rw [if_pos rfl, ite_self]
    | refl c => rfl
    | symm c d _ ih => exact ih.symm
    | trans c d e _ _ ih ih' => exact ih.trans ih'

/-- Every element its own root. -/
def discrete (α : Type) : Forest α where
  root := id
  settles _ := ⟨0, rfl⟩

theorem links_discrete : (discrete α).Links fun _ _ => False := by
  intro c d
  rw [rep_of_root rfl, rep_of_root rfl]
  constructor
  · rintro rfl
    exact .refl _
  · intro hgen
    induction hgen with
    | rel _ _ h => exact h.elim
    | refl _ => rfl
    | symm _ _ _ ih => exact ih.symm
    | trans _ _ _ _ _ ih ih' => exact ih.trans ih'

/-- The unions of some pairs, one after the other. -/
def unionAll (forest : Forest α) (pairs : List (α × α)) : Forest α :=
  pairs.foldl (fun forest pair => forest.union pair.1 pair.2) forest

variable {forest} in
/-- After unions, elements have one root when the pairs link them. -/
theorem Links.unionAll {r : α → α → Prop} (h : forest.Links r) (pairs : List (α × α)) :
  (forest.unionAll pairs).Links fun c d => r c d ∨ (c, d) ∈ pairs
  := by
  induction pairs generalizing forest r with
  | nil =>
    intro c d
    rw [Forest.unionAll, List.foldl_nil, h c d]
    simp
  | cons pair pairs ih =>
    intro c d
    rw [Forest.unionAll, List.foldl_cons]
    rw [← Forest.unionAll, ih (h.union pair.1 pair.2) c d]
    apply iff_of_eq
    congr 1
    funext c d
    simp [or_assoc, Prod.ext_iff]

end Forest

end DisjointSets
