import GRParse.Layout.Geometry

/-!
# Chains

The items of a body move in chains: an item with a place, and the items without one that
follow it.  Footnotes, headers and footers take no followers; what follows them goes with the
main text before.  Listing the items chain by chain and building chains again gives the same
chains (`buildChains_append`), so chains can be moved without coming apart.

An item stands for itself: what is known of it is where it sits and what it is.
-/

namespace GRParse.Layout

open List

/-- A placed item and the unplaced items that follow it, or unplaced items alone. -/
structure Chain (ι : Type) where
  placement : Option ItemPlacement
  label : DocItemLabel
  positions : List ι
  deriving DecidableEq

def isFurnitureLabel (label : DocItemLabel) : Bool :=
  label = .pageHeader || label = .pageFooter

/-- `carries_no_followers`. -/
def carriesNoFollowers (label : DocItemLabel) : Bool :=
  isFurnitureLabel label || label = .footnote

section

variable {ι κ : Type}

def Chain.carry (item : ι) (chain : Chain ι) : Chain ι :=
  { chain with positions := chain.positions ++ [item] }

/-- The chains so far, and the last of them that takes followers. -/
structure Chaining (ι : Type) where
  chains : List (Chain ι) := []
  lastMain : Option ℕ := none

variable (placement : ι → Option ItemPlacement) (label : ι → DocItemLabel)

/-- The next item, without a place: it goes with the last chain of the main text, or while
there is none with the unplaced items right before it. -/
def followItem (s : Chaining ι) (item : ι) : Chaining ι :=
  match s.lastMain with
  | some last => { s with chains := s.chains.modify last (Chain.carry item) }
  | none =>
    if s.chains.getLast?.any (·.placement.isNone) then
      { s with chains := s.chains.modify (s.chains.length - 1) (Chain.carry item) }
    else { s with chains := s.chains ++ [⟨none, label item, [item]⟩] }

/-- The next item. -/
def addItem (s : Chaining ι) (item : ι) : Chaining ι :=
  match placement item with
  | none => followItem label s item
  | some place =>
    { chains := s.chains ++ [⟨some place, label item, [item]⟩]
      lastMain := if carriesNoFollowers (label item) then s.lastMain else some s.chains.length }

/-- `build_chains`. -/
def buildChains (items : List ι) : List (Chain ι) :=
  (items.foldl (addItem placement label) {}).chains

/-! ### What chains look like -/

/-- The chain is a placed item and followers it may have, or unplaced items. -/
def Chain.Linked (chain : Chain ι) : Prop :=
  match chain.placement with
  | none => chain.positions ≠ [] ∧ ∀ item ∈ chain.positions, placement item = none
  | some place =>
    ∃ item followers, chain.positions = item :: followers ∧ placement item = some place ∧
      label item = chain.label ∧ (∀ follower ∈ followers, placement follower = none) ∧
      (carriesNoFollowers chain.label → followers = [])

/-- All chains are linked, and the last one for followers takes them. -/
structure Chaining.Sound (s : Chaining ι) : Prop where
  linked : ∀ chain ∈ s.chains, chain.Linked placement label
  main : ∀ last, s.lastMain = some last →
    ∃ chain, s.chains[last]? = some chain ∧ chain.placement.isSome ∧
      carriesNoFollowers chain.label = false

variable {placement label}

theorem Chain.linked_placed {item : ι} {place : ItemPlacement}
    (hitem : placement item = some place) :
  (⟨some place, label item, [item]⟩ : Chain ι).Linked placement label
  := ⟨item, [], rfl, hitem, rfl, by simp, fun _ => rfl⟩

theorem Chain.linked_unplaced {item : ι} (hitem : placement item = none)
    (chainLabel : DocItemLabel) :
  (⟨none, chainLabel, [item]⟩ : Chain ι).Linked placement label
  := ⟨by simp, by simpa using hitem⟩

/-- A chain with a follower more. -/
theorem Chain.Linked.carry {chain : Chain ι} {item : ι} (h : chain.Linked placement label)
    (hitem : placement item = none)
    (hmain : chain.placement.isSome → carriesNoFollowers chain.label = false) :
  (chain.carry item).Linked placement label
  := by
  obtain ⟨place, chainLabel, positions⟩ := chain
  cases place with
  | none =>
    obtain ⟨hne, hall⟩ := h
    refine ⟨by simp [Chain.carry], fun other hother => ?_⟩
    rcases mem_append.mp hother with hother | hother
    · exact hall other hother
    · rwa [mem_singleton.mp hother]
  | some place =>
    obtain ⟨first, followers, rfl, hplace, hlabel, hall, -⟩ := h
    refine ⟨first, followers ++ [item], rfl, hplace, hlabel, fun other hother => ?_, ?_⟩
    · rcases mem_append.mp hother with hother | hother
      · exact hall other hother
      · rwa [mem_singleton.mp hother]
    · intro hnone
      simp [hmain rfl, Chain.carry] at hnone

variable {chains : List (Chain ι)}

theorem positions_modify_carry {last : ℕ} (hlast : last < chains.length) (item : ι) :
  ((chains.modify last (Chain.carry item)).flatMap Chain.positions).Perm
    (chains.flatMap Chain.positions ++ [item])
  := by
  induction chains generalizing last with
  | nil => simp at hlast
  | cons chain chains ih =>
    cases last with
    | zero =>
      simp only [modify_zero_cons, flatMap_cons, Chain.carry, append_assoc]
      exact (perm_append_comm).append_left chain.positions
    | succ last =>
      simp only [modify_succ_cons, flatMap_cons, append_assoc]
      exact (ih (by simpa using hlast)).append_left chain.positions

/-- A chain that takes a follower leaves the others as they are. -/
theorem Chaining.Sound.modify {s : Chaining ι} (h : s.Sound placement label) {last : ℕ}
    {chain : Chain ι} {item : ι} (hchain : s.chains[last]? = some chain)
    (hitem : placement item = none)
    (hmain : chain.placement.isSome → carriesNoFollowers chain.label = false) :
  ({ s with chains := s.chains.modify last (Chain.carry item) } : Chaining ι).Sound placement label
  := by
  constructor
  · intro other hother
    obtain ⟨index, hindex⟩ := mem_iff_getElem?.mp hother
    rw [getElem?_modify] at hindex
    obtain ⟨old, hold, rfl⟩ := Option.map_eq_some_iff.mp hindex
    split
    case isTrue heq =>
      obtain rfl : chain = old := by simpa [heq, hold] using hchain.symm
      exact (h.linked chain (mem_of_getElem? hold)).carry hitem hmain
    case isFalse => exact h.linked old (mem_of_getElem? hold)
  · intro index hindex
    obtain ⟨old, hold, hplaced, hlabel⟩ := h.main index hindex
    refine ⟨if last = index then old.carry item else old, ?_, ?_, ?_⟩
    · simp only [getElem?_modify, hold]
      split <;> rfl
    · split <;> exact hplaced
    · split <;> exact hlabel

variable {chain : Chain ι}

theorem Chaining.Sound.append {s : Chaining ι} (h : s.Sound placement label)
    (hchain : chain.Linked placement label) {lastMain : Option ℕ}
    (hmain : ∀ last, lastMain = some last → s.lastMain = some last ∨
      (last = s.chains.length ∧ chain.placement.isSome ∧ carriesNoFollowers chain.label = false)) :
  (⟨s.chains ++ [chain], lastMain⟩ : Chaining ι).Sound placement label
  := by
  constructor
  · intro other hother
    rcases List.mem_append.mp hother with hother | hother
    · exact h.linked other hother
    · rwa [List.mem_singleton.mp hother]
  · intro last hlast
    rcases hmain last hlast with hold | ⟨rfl, hplaced, hlabel⟩
    · obtain ⟨old, hgetElem, hold⟩ := h.main last hold
      refine ⟨old, ?_, hold⟩
      rwa [List.getElem?_append_left (List.getElem?_eq_some_iff.mp hgetElem).1]
    · exact ⟨chain, by simp, hplaced, hlabel⟩

/-- The next item joins the chains, and no other item comes or goes. -/
theorem Chaining.Sound.addItem {s : Chaining ι} (h : s.Sound placement label) (item : ι) :
  (addItem placement label s item).Sound placement label ∧
    ((addItem placement label s item).chains.flatMap Chain.positions).Perm
      (s.chains.flatMap Chain.positions ++ [item])
  := by
  unfold Layout.addItem
  cases hitem : placement item with
  | some place =>
    refine ⟨h.append (Chain.linked_placed hitem) ?_, by simp⟩
    intro last hlast
    by_cases hlabel : carriesNoFollowers (label item)
    · exact .inl (by simpa [hlabel] using hlast)
    · exact .inr ⟨by simpa [hlabel, eq_comm] using hlast, rfl, by simpa using hlabel⟩
  | none =>
    simp only [followItem]
    split
    case h_1 last hlast =>
      obtain ⟨chain, hchain, hplaced, hlabel⟩ := h.main last hlast
      refine ⟨h.modify hchain hitem fun _ => hlabel, positions_modify_carry ?_ item⟩
      exact (List.getElem?_eq_some_iff.mp hchain).1
    case h_2 hmain =>
      split
      case isTrue hlast =>
        obtain ⟨chain, hchain, hnone⟩ := (Option.any_eq_true _ _).mp hlast
        rw [List.getLast?_eq_getElem?] at hchain
        refine ⟨h.modify hchain hitem fun hsome => ?_, positions_modify_carry ?_ item⟩
        · simp [Option.isNone_iff_eq_none.mp hnone] at hsome
        · exact (List.getElem?_eq_some_iff.mp hchain).1
      case isFalse =>
        exact ⟨h.append (Chain.linked_unplaced hitem _) fun last hlast => .inl hlast, by simp⟩

theorem Chaining.Sound.run {s : Chaining ι} (h : s.Sound placement label) (items : List ι) :
  (items.foldl (Layout.addItem placement label) s).Sound placement label ∧
    ((items.foldl (Layout.addItem placement label) s).chains.flatMap Chain.positions).Perm
      (s.chains.flatMap Chain.positions ++ items)
  := by
  induction items generalizing s with
  | nil => exact ⟨h, by simp⟩
  | cons item items ih =>
    obtain ⟨hsound, hperm⟩ := h.addItem item
    obtain ⟨hrun, hitems⟩ := ih hsound
    refine ⟨hrun, hitems.trans ?_⟩
    simpa using hperm.append_right items

theorem Chaining.sound_start : ({} : Chaining ι).Sound placement label
  := ⟨by simp, by simp⟩

variable {items : List ι}

theorem linked_of_mem_buildChains (h : chain ∈ buildChains placement label items) :
  chain.Linked placement label
  := (Chaining.sound_start.run items).1.linked chain h

/-- Every item is in one chain. -/
theorem buildChains_perm (placement : ι → Option ItemPlacement) (label : ι → DocItemLabel)
    (items : List ι) :
  ((buildChains placement label items).flatMap Chain.positions).Perm items
  := (Chaining.sound_start.run items).2

/-! ### Chains are built again -/

/-- Unplaced items before anything else are one chain. -/
def leadChains (label : ι → DocItemLabel) : List ι → List (Chain ι)
  | [] => []
  | item :: items => [⟨none, label item, item :: items⟩]

theorem positions_leadChains (label : ι → DocItemLabel) (items : List ι) :
  (leadChains label items).flatMap Chain.positions = items
  := by
  cases items <;> simp [leadChains]

theorem placement_leadChains (h : chain ∈ leadChains label items) :
  chain.placement = none
  := by
  cases items with
  | nil => simp [leadChains] at h
  | cons item items => rw [mem_singleton.mp h]

theorem foldl_lead (h : ∀ item ∈ items, placement item = none) :
  items.foldl (addItem placement label) {} = ⟨leadChains label items, none⟩
  := by
  induction items using reverseRecOn with
  | nil => rfl
  | append_singleton items item ih =>
    rw [foldl_concat, ih fun other hother => h other (mem_append_left _ hother), addItem,
      h item (by simp)]
    cases items <;> simp [followItem, leadChains, Chain.carry]

theorem modify_last (chain : Chain ι) (item : ι) :
  (chains ++ [chain]).modify chains.length (Chain.carry item) = chains ++ [chain.carry item]
  := by
  simp [modify_eq_take_cons_drop]

/-- Followers of the last chain are added to it. -/
theorem foldl_followers {followers : List ι} (h : ∀ item ∈ followers, placement item = none) :
  followers.foldl (addItem placement label) ⟨chains ++ [chain], some chains.length⟩ =
    ⟨chains ++ [{ chain with positions := chain.positions ++ followers }], some chains.length⟩
  := by
  induction followers generalizing chain with
  | nil => simp
  | cons item followers ih =>
    rw [foldl_cons, addItem, h item (by simp)]
    simp only [followItem, modify_last]
    rw [ih fun other hother => h other (mem_cons_of_mem _ hother)]
    simp [Chain.carry]

/-- The items of a chain with a place are that chain. -/
theorem foldl_chain {place : ItemPlacement} (hplace : chain.placement = some place)
    (h : chain.Linked placement label) (s : Chaining ι) :
  ∃ lastMain, chain.positions.foldl (addItem placement label) s = ⟨s.chains ++ [chain], lastMain⟩
  := by
  obtain ⟨_, chainLabel, positions⟩ := chain
  obtain rfl := hplace
  obtain ⟨item, followers, rfl, hitem, rfl, hall, hnone⟩ := h
  rw [foldl_cons, addItem, hitem]
  cases hlabel : carriesNoFollowers (label item) with
  | true =>
    obtain rfl := hnone hlabel
    exact ⟨_, rfl⟩
  | false => exact ⟨_, foldl_followers hall⟩

theorem foldl_chains
    (h : ∀ chain ∈ chains, chain.placement.isSome ∧ chain.Linked placement label)
    (s : Chaining ι) :
  ∃ lastMain, (chains.flatMap Chain.positions).foldl (addItem placement label) s =
    ⟨s.chains ++ chains, lastMain⟩
  := by
  induction chains generalizing s with
  | nil => exact ⟨s.lastMain, by simp⟩
  | cons chain chains ih =>
    obtain ⟨hplaced, hlinked⟩ := h chain (by simp)
    obtain ⟨place, hplace⟩ := Option.isSome_iff_exists.mp hplaced
    obtain ⟨last, hchain⟩ := foldl_chain hplace hlinked s
    obtain ⟨last', hchains⟩ := ih (fun other hother => h other (mem_cons_of_mem _ hother))
      ⟨s.chains ++ [chain], last⟩
    exact ⟨last', by rw [flatMap_cons, foldl_append, hchain, hchains]; simp⟩

/-- Unplaced items and the items of placed chains behind them are chained as they were. -/
theorem buildChains_append (hitems : ∀ item ∈ items, placement item = none)
    (hchains : ∀ chain ∈ chains, chain.placement.isSome ∧ chain.Linked placement label) :
  buildChains placement label (items ++ chains.flatMap Chain.positions) =
    leadChains label items ++ chains
  := by
  obtain ⟨last, h⟩ := foldl_chains hchains ⟨leadChains label items, none⟩
  rw [buildChains, foldl_append, foldl_lead hitems, h]

/-! ### Other names for the items -/

def Chain.map (f : κ → ι) (chain : Chain κ) : Chain ι where
  placement := chain.placement
  label := chain.label
  positions := chain.positions.map f

theorem Chain.map_injective {f : κ → ι} (h : Function.Injective f) :
  Function.Injective (Chain.map f)
  := by
  rintro ⟨placement, label, positions⟩ ⟨placement', label', positions'⟩ heq
  simp only [Chain.map, Chain.mk.injEq] at heq ⊢
  exact ⟨heq.1, heq.2.1, h.list_map heq.2.2⟩

theorem map_modify_carry (f : κ → ι) (chains : List (Chain κ)) (last : ℕ) (item : κ) :
  (chains.modify last (Chain.carry item)).map (Chain.map f) =
    (chains.map (Chain.map f)).modify last (Chain.carry (f item))
  := by
  induction chains generalizing last with
  | nil => simp
  | cons chain chains ih => cases last <;> simp [ih, Chain.map, Chain.carry]

/-- Chains of renamed items are the renamed chains. -/
theorem buildChains_map (f : κ → ι) (items : List κ) :
  buildChains placement label (items.map f) =
    (buildChains (placement ∘ f) (label ∘ f) items).map (Chain.map f)
  := by
  have hstep : ∀ (s : Chaining κ) (item : κ),
      addItem placement label ⟨s.chains.map (Chain.map f), s.lastMain⟩ (f item) =
        ⟨(addItem (placement ∘ f) (label ∘ f) s item).chains.map (Chain.map f),
          (addItem (placement ∘ f) (label ∘ f) s item).lastMain⟩ := by
    rintro ⟨chains, lastMain⟩ item
    simp only [addItem, Function.comp_apply]
    cases placement (f item) with
    | some place => simp [Chain.map]
    | none =>
      cases lastMain with
      | some last => simp [followItem, map_modify_carry]
      | none =>
        simp only [followItem, getLast?_map, length_map, Option.any_map,
          Function.comp_def]
        change (if (chains.getLast?.any fun chain => chain.placement.isNone) then _ else _) = _
        split
        · simp [map_modify_carry]
        · simp [Chain.map]
  have hrun : ∀ (items : List κ) (s : Chaining κ),
      (items.map f).foldl (addItem placement label) ⟨s.chains.map (Chain.map f), s.lastMain⟩ =
        ⟨(items.foldl (addItem (placement ∘ f) (label ∘ f)) s).chains.map (Chain.map f),
          (items.foldl (addItem (placement ∘ f) (label ∘ f)) s).lastMain⟩ := by
    intro items
    induction items with
    | nil => exact fun _ => rfl
    | cons item items ih =>
      intro s
      rw [map_cons, foldl_cons, foldl_cons, hstep, ih]
  exact congrArg Chaining.chains (hrun items {})

end

end GRParse.Layout
