import Mathlib.Data.List.Nodup
import Mathlib.Data.List.Range
import Mathlib.Data.List.Perm.Subperm

/-!
# Chains of links

Every link tells where the next one is, or that there is none.  A chain is the list of the links
from a start to an end.  There is at most one, and no link is twice in it: a link that is met again
leads back to itself forever.
-/

namespace LinkedChain

variable {α : Type*} {next : α → Option α} {ends : α → Prop}

/-- The links from a start to an end. -/
inductive LeadsAlong (next : α → Option α) (ends : α → Prop) : α → List α → Prop
  | done {link : α} : ends link → LeadsAlong next ends link []
  | step {link target : α} {chain : List α} : ¬ ends link → next link = some target →
      LeadsAlong next ends target chain → LeadsAlong next ends link (link :: chain)

namespace LeadsAlong

/-- There is one chain from a start. -/
theorem unique {link : α} {chain chain' : List α} (h : LeadsAlong next ends link chain)
    (h' : LeadsAlong next ends link chain') :
  chain = chain'
  := by
  induction h generalizing chain' with
  | done hends =>
    cases h' with
    | done => rfl
    | step hgoes => exact absurd hends hgoes
  | step hgoes hnext _ ih =>
    cases h' with
    | done hends => exact absurd hends hgoes
    | step _ hnext' h' =>
      obtain rfl := Option.some.inj (hnext.symm.trans hnext')
      rw [ih h']

/-- From every link of a chain a rest of the chain leads on. -/
theorem suffix {link : α} {chain : List α} (h : LeadsAlong next ends link chain) {member : α}
    (hmem : member ∈ chain) :
  ∃ rest, LeadsAlong next ends member (member :: rest) ∧ rest.length < chain.length
  := by
  induction h with
  | done => cases hmem
  | @step link target chain hgoes hnext hrest ih =>
    rcases List.mem_cons.mp hmem with rfl | hmem
    · exact ⟨chain, .step hgoes hnext hrest, Nat.lt_succ_self _⟩
    · obtain ⟨rest, hmember, hlength⟩ := ih hmem
      exact ⟨rest, hmember, hlength.trans (Nat.lt_succ_self _)⟩

theorem nodup {link : α} {chain : List α} (h : LeadsAlong next ends link chain) :
  chain.Nodup
  := by
  induction h with
  | done => exact List.nodup_nil
  | @step link target chain hgoes hnext hrest ih =>
    apply List.nodup_cons.mpr
    refine ⟨fun hmem => ?_, ih⟩
    -- The rest that leads on from the link would be the whole chain.
    obtain ⟨rest, hmember, hlength⟩ := hrest.suffix hmem
    have heq := hmember.unique (.step hgoes hnext hrest)
    rw [(List.cons.inj heq).2] at hlength
    exact hlength.false

end LeadsAlong

end LinkedChain
