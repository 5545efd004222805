import GRParse.Render.SortedTree

/-!
# The value of a tree in order

A tree and the tree in order differ in the order of members only, and putting a tree into order
twice is putting it into order once.  The text without white space is one of the tree, so trees
that print alike are one.
-/

namespace GRParse.Render

open Json Sorting

/-! ### What the sorted tree keeps -/

mutual

/-- Trees of the same scalars and strings, with the members of objects in any order. -/
def Same : Tree → Tree → Prop
  | .scalar token, other => other = .scalar token
  | .string body, other => other = .string body
  | .array elements, other => ∃ others, other = .array others ∧ SameElements elements others
  | .object members, other =>
    ∃ between others, other = .object others ∧ SameMembers members between ∧ between.Perm others

def SameElements : List Tree → List Tree → Prop
  | [], others => others = []
  | element :: elements, others =>
    ∃ other rest, others = other :: rest ∧ Same element other ∧ SameElements elements rest

def SameMembers : List (List UInt8 × Tree) → List (List UInt8 × Tree) → Prop
  | [], others => others = []
  | (key, member) :: members, others =>
    ∃ other rest, others = (key, other) :: rest ∧ Same member other ∧ SameMembers members rest

end

variable (names : List (List UInt8))

mutual

/-- Only the order of members changes. -/
theorem same_sortTree : ∀ (sort : Bool) (tree : Tree),
  Same tree (sortTree names sort tree)
  | _, .scalar _ => rfl
  | _, .string _ => rfl
  | _, .array elements => ⟨_, rfl, same_sortElements elements⟩
  | false, .object members => ⟨_, _, rfl, same_sortMembers members, .refl _⟩
  | true, .object members => ⟨_, _, rfl, same_sortMembers members, (order_perm _).symm⟩

theorem same_sortElements : ∀ (elements : List Tree),
  SameElements elements (sortElements names elements)
  | [] => rfl
  | element :: elements =>
    ⟨_, _, rfl, same_sortTree false element, same_sortElements elements⟩

theorem same_sortMembers : ∀ (members : List (List UInt8 × Tree)),
  SameMembers members (sortMembers names members)
  | [] => rfl
  | (key, member) :: members =>
    ⟨_, _, rfl, same_sortTree (names.contains key) member, same_sortMembers members⟩

end

/-- A member with its value in order. -/
def sortMember (member : List UInt8 × Tree) : List UInt8 × Tree :=
  (member.1, sortTree names (names.contains member.1) member.2)

variable (members : List (List UInt8 × Tree))

theorem sortMembers_eq_map :
  sortMembers names members = members.map (sortMember names)
  := by
  induction members with
  | nil => rfl
  | cons member members ih =>
    obtain ⟨key, member⟩ := member
    rw [sortMembers, ih]
    rfl

@[simp]
theorem keys_sortMembers :
  (sortMembers names members).map Prod.fst = members.map Prod.fst
  := by
  rw [sortMembers_eq_map, List.map_map]
  rfl

/-- Putting values into order does not change the order of the members. -/
theorem sortMembers_order :
  sortMembers names (order (fun member => quote member.1) members)
    = order (fun member => quote member.1) (sortMembers names members)
  := by
  rw [sortMembers_eq_map, sortMembers_eq_map, order_map]
  rfl

mutual

/-- A sorted tree is in order. -/
theorem sortTree_sortTree : ∀ (sort : Bool) (tree : Tree),
  sortTree names sort (sortTree names sort tree) = sortTree names sort tree
  | _, .scalar _ => rfl
  | _, .string _ => rfl
  | _, .array elements => by
    simp only [sortTree, sortElements_sortElements elements]
  | false, .object members => by
    simp [sortTree, sortMembers_sortMembers members]
  | true, .object members => by
    simp only [sortTree, if_true]
    rw [sortMembers_order, sortMembers_sortMembers members, order_order]

theorem sortElements_sortElements : ∀ (elements : List Tree),
  sortElements names (sortElements names elements) = sortElements names elements
  | [] => rfl
  | element :: elements => by
    simp only [sortElements, sortTree_sortTree false element, sortElements_sortElements elements]

theorem sortMembers_sortMembers : ∀ (members : List (List UInt8 × Tree)),
  sortMembers names (sortMembers names members) = sortMembers names members
  | [] => rfl
  | (key, member) :: members => by
    simp only [sortMembers, sortTree_sortTree (names.contains key) member,
      sortMembers_sortMembers members]

end

/-! ### Trees that are spelled -/

mutual

/-- A tree of lexemes that a text may have. -/
def WellFormed : Tree → Prop
  | .scalar token => isToken token
  | .string body => isBody body
  | .array elements => WellFormedElements elements
  | .object members => WellFormedMembers members

def WellFormedElements : List Tree → Prop
  | [] => True
  | element :: elements => WellFormed element ∧ WellFormedElements elements

def WellFormedMembers : List (List UInt8 × Tree) → Prop
  | [] => True
  | (key, member) :: members => (isBody key ∧ WellFormed member) ∧ WellFormedMembers members

end

mutual

theorem wellFormed_of_spells : ∀ (tree : Tree) {text : List UInt8}, tree.Spells text →
  WellFormed tree
  | .scalar _, _, h => h.1
  | .string _, _, h => h.1
  | .array elements, _, ⟨_, h, _⟩ => wellFormed_of_spellsElements elements h
  | .object members, _, ⟨_, h, _⟩ => wellFormed_of_spellsMembers members h

theorem wellFormed_of_spellsElements : ∀ (elements : List Tree) {inside : List UInt8},
    SpellsElements elements inside →
  WellFormedElements elements
  | [], _, _ => trivial
  | element :: elements, _, h => by
    obtain ⟨before, text, after, -, htext, -, hinside⟩ := h
    refine ⟨wellFormed_of_spells element htext, ?_⟩
    split at hinside
    case isTrue hnil =>
      subst hnil
      exact trivial
    case isFalse =>
      obtain ⟨rest, hrest, -⟩ := hinside
      exact wellFormed_of_spellsElements elements hrest

theorem wellFormed_of_spellsMembers : ∀ (members : List (List UInt8 × Tree))
    {inside : List UInt8}, SpellsMembers members inside →
  WellFormedMembers members
  | [], _, _ => trivial
  | (key, member) :: members, _, h => by
    obtain ⟨before, between, colon, text, after, -, hkey, -, -, htext, -, hinside⟩ := h
    refine ⟨⟨hkey, wellFormed_of_spells member htext⟩, ?_⟩
    split at hinside
    case isTrue hnil =>
      subst hnil
      exact trivial
    case isFalse =>
      obtain ⟨rest, hrest, -⟩ := hinside
      exact wellFormed_of_spellsMembers members hrest

end

mutual

/-- The text without white space is one of the tree. -/
theorem spells_compact : ∀ (tree : Tree), WellFormed tree →
  tree.Spells (compact tree)
  | .scalar _, h => ⟨h, rfl⟩
  | .string _, h => ⟨h, rfl⟩
  | .array elements, h => ⟨_, spells_compactElements elements h, rfl⟩
  | .object members, h => ⟨_, spells_compactMembers members h, rfl⟩

theorem spells_compactElements : ∀ (elements : List Tree), WellFormedElements elements →
  SpellsElements elements (compactElements elements)
  | [], _ => rfl
  | element :: elements, h => by
    refine ⟨[], compact element, [], rfl, spells_compact element h.1, rfl, ?_⟩
    split
    case isTrue hnil => simp [compactElements, hnil]
    case isFalse hne =>
      exact ⟨_, spells_compactElements elements h.2, by simp [compactElements, hne]⟩

theorem spells_compactMembers : ∀ (members : List (List UInt8 × Tree)),
    WellFormedMembers members →
  SpellsMembers members (compactMembers members)
  | [], _ => rfl
  | (key, member) :: members, h => by
    refine ⟨[], [], [], compact member, [], rfl, h.1.1, rfl, rfl, spells_compact member h.1.2, rfl,
      ?_⟩
    split
    case isTrue hnil => simp [compactMembers, hnil, quote]
    case isFalse hne =>
      exact ⟨_, spells_compactMembers members h.2, by simp [compactMembers, hne, quote]⟩

end

theorem wellFormedMembers_iff :
  WellFormedMembers members ↔ ∀ member ∈ members, isBody member.1 ∧ WellFormed member.2
  := by
  induction members with
  | nil => simp [WellFormedMembers]
  | cons member members ih =>
    obtain ⟨key, member⟩ := member
    rw [WellFormedMembers, ih, List.forall_mem_cons]

theorem WellFormedMembers.perm {members others : List (List UInt8 × Tree)}
    (h : WellFormedMembers members) (hperm : members.Perm others) :
  WellFormedMembers others
  := by
  rw [wellFormedMembers_iff] at h ⊢
  intro member hmember
  exact h member (hperm.mem_iff.mpr hmember)

mutual

theorem wellFormed_of_same : ∀ (tree : Tree) {other : Tree}, Same tree other → WellFormed tree →
  WellFormed other
  | .scalar _, _, rfl, h => h
  | .string _, _, rfl, h => h
  | .array elements, _, ⟨_, rfl, hsame⟩, h => wellFormed_of_sameElements elements hsame h
  | .object members, _, ⟨_, _, rfl, hsame, hperm⟩, h =>
    (wellFormed_of_sameMembers members hsame h).perm hperm

theorem wellFormed_of_sameElements : ∀ (elements : List Tree) {others : List Tree},
    SameElements elements others → WellFormedElements elements →
  WellFormedElements others
  | [], _, rfl, _ => trivial
  | element :: elements, _, ⟨_, _, rfl, hsame, hrest⟩, h =>
    ⟨wellFormed_of_same element hsame h.1, wellFormed_of_sameElements elements hrest h.2⟩

theorem wellFormed_of_sameMembers : ∀ (members : List (List UInt8 × Tree))
    {others : List (List UInt8 × Tree)}, SameMembers members others → WellFormedMembers members →
  WellFormedMembers others
  | [], _, rfl, _ => trivial
  | (_, member) :: members, _, ⟨_, _, rfl, hsame, hrest⟩, h =>
    ⟨⟨h.1.1, wellFormed_of_same member hsame h.1.2⟩, wellFormed_of_sameMembers members hrest h.2⟩

end

theorem spelled_compact {tree : Tree} (h : WellFormed tree) :
  Spelled tree (compact tree)
  := ⟨[], compact tree, [], rfl, spells_compact tree h, rfl, by simp⟩

theorem compact_injOn {tree other : Tree} (h : WellFormed tree) (hother : WellFormed other)
    (heq : compact tree = compact other) :
  tree = other
  := by
  have hparse := parse_of_spelled (spelled_compact h)
  rw [heq, parse_of_spelled (spelled_compact hother)] at hparse
  exact (Option.some.inj hparse).symm

end GRParse.Render
