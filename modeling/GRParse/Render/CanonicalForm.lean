import GRParse.Render.Printed

/-!
# One form for a message

The printer writes the entries of a map in any order.  Putting the keys into order gives one text
for all of them where every map stands under the name of a map field and no two of its keys
spell one integer; the fields of a `Struct` may stand under another name.
-/

namespace GRParse.Render

open Json Sorting List

/-! ### Orders of one message -/

mutual

theorem reorders_refl : ∀ (printed : Printed), printed.Reorders printed
  | .scalar _ => rfl
  | .string _ => rfl
  | .array elements => ⟨_, rfl, reordersElements_refl elements⟩
  | .message fields => ⟨_, rfl, reordersMembers_refl fields⟩
  | .map entries => ⟨_, _, rfl, reordersMembers_refl entries, .refl _⟩
  | .struct fields => ⟨_, _, rfl, reordersMembers_refl fields, .refl _⟩

theorem reordersElements_refl : ∀ (elements : List Printed), ReordersElements elements elements
  | [] => rfl
  | element :: elements => ⟨_, _, rfl, reorders_refl element, reordersElements_refl elements⟩

theorem reordersMembers_refl : ∀ (members : List (List UInt8 × Printed)),
  ReordersMembers members members
  | [] => rfl
  | (_, member) :: members => ⟨_, _, rfl, reorders_refl member, reordersMembers_refl members⟩

end

theorem memberTrees_eq_map (members : List (List UInt8 × Printed)) :
  memberTrees members = members.map fun member => (member.1, member.2.tree)
  := by
  induction members with
  | nil => rfl
  | cons member members ih =>
    obtain ⟨key, member⟩ := member
    rw [memberTrees, ih]
    rfl

@[simp]
theorem keys_memberTrees (members : List (List UInt8 × Printed)) :
  (memberTrees members).map Prod.fst = members.map Prod.fst
  := by
  rw [memberTrees_eq_map, map_map]
  rfl

theorem ReordersMembers.keys : ∀ {members others : List (List UInt8 × Printed)},
    ReordersMembers members others →
  others.map Prod.fst = members.map Prod.fst
  | [], _, rfl => rfl
  | (key, _) :: _, _, ⟨_, _, rfl, _, hrest⟩ => by
    rw [List.map_cons, List.map_cons, hrest.keys]

variable {names : List (List UInt8)}

theorem sortMembers_perm {members others : List (List UInt8 × Printed)} (h : members.Perm others) :
  (sortMembers names (memberTrees members)).Perm (sortMembers names (memberTrees others))
  := by
  rw [sortMembers_eq_map, sortMembers_eq_map, memberTrees_eq_map, memberTrees_eq_map]
  exact (h.map _).map _

/-- Entries in any order are put into one. -/
theorem order_entries {entries between others : List (List UInt8 × Printed)}
    (hbetween : sortMembers names (memberTrees between) = sortMembers names (memberTrees entries))
    (hperm : between.Perm others) (hkeys : (entries.map Prod.fst).Nodup)
    (happart : TellsApart (entries.map Prod.fst)) :
  order (fun member => quote member.1) (sortMembers names (memberTrees others))
    = order (fun member => quote member.1) (sortMembers names (memberTrees entries))
  := by
  symm
  apply order_eq_of_perm
  · rw [← hbetween]
    exact sortMembers_perm hperm
  · simpa using hkeys
  · simpa using happart

mutual

/-- A message in canonical form is put into one order. -/
theorem sortTree_of_reorders : ∀ (printed : Printed) {other : Printed} {sort : Bool},
    printed.Named names sort → printed.Canonical names sort → printed.Reorders other →
  sortTree names sort other.tree = sortTree names sort printed.tree
  | .scalar _, _, _, _, _, rfl => rfl
  | .string _, _, _, _, _, rfl => rfl
  | .array elements, _, _, hnamed, hcanonical, ⟨others, rfl, hothers⟩ => by
    simp only [Printed.tree, sortTree, sortElements_of_reorders elements hnamed hcanonical hothers]
  | .message fields, _, _, hnamed, hcanonical, ⟨others, rfl, hothers⟩ => by
    simp only [Printed.tree, sortTree, sortMembers_of_reorders fields hnamed.2 hcanonical hothers]
  | .map entries, _, sort, hnamed, hcanonical, ⟨between, others, rfl, hbetween, hperm⟩ => by
    obtain ⟨rfl, hkeys, hentries⟩ := hnamed
    have hsorted := sortMembers_of_reorders entries hentries hcanonical.2 hbetween
    simp only [Printed.tree, sortTree, if_true,
      order_entries hsorted hperm hkeys hcanonical.1]
  | .struct fields, _, sort, hnamed, hcanonical, ⟨between, others, rfl, hbetween, hperm⟩ => by
    have hsorted := sortMembers_of_reorders fields hnamed.2 hcanonical.2 hbetween
    rcases hcanonical.1 with hone | ⟨rfl, happart⟩
    · have hlength := congrArg List.length hbetween.keys
      simp only [List.length_map] at hlength
      have heq : others = between := by
        match between, hperm, hlength with
        | [], hperm, _ => exact hperm.nil_eq.symm
        | [entry], hperm, _ => exact (List.perm_singleton.mp hperm.symm)
        | _ :: _ :: _, _, hlength =>
          simp at hlength
          omega
      simp only [Printed.tree, sortTree, heq, hsorted]
    · simp only [Printed.tree, sortTree, if_true,
        order_entries hsorted hperm hnamed.1 happart]

theorem sortElements_of_reorders : ∀ (elements : List Printed) {others : List Printed},
    NamedElements names elements → CanonicalElements names elements →
    ReordersElements elements others →
  sortElements names (elementTrees others) = sortElements names (elementTrees elements)
  | [], _, _, _, rfl => rfl
  | element :: elements, _, hnamed, hcanonical, ⟨_, _, rfl, hother, hrest⟩ => by
    simp only [elementTrees, sortElements,
      sortTree_of_reorders element hnamed.1 hcanonical.1 hother,
      sortElements_of_reorders elements hnamed.2 hcanonical.2 hrest]

theorem sortMembers_of_reorders : ∀ (members : List (List UInt8 × Printed))
    {others : List (List UInt8 × Printed)}, NamedMembers names members →
    CanonicalMembers names members → ReordersMembers members others →
  sortMembers names (memberTrees others) = sortMembers names (memberTrees members)
  | [], _, _, _, rfl => rfl
  | (_, member) :: members, _, hnamed, hcanonical, ⟨_, _, rfl, hother, hrest⟩ => by
    simp only [memberTrees, sortMembers,
      sortTree_of_reorders member hnamed.1 hcanonical.1 hother,
      sortMembers_of_reorders members hnamed.2 hcanonical.2 hrest]

end

/-! ### Only canonical messages have one order -/

theorem eq_of_perm_of_keys {α : Type} {members others : List (List UInt8 × α)}
    (h : members.Perm others) (hsame : members.map Prod.fst = others.map Prod.fst)
    (hkeys : (members.map Prod.fst).Nodup) :
  members = others
  := by
  induction members generalizing others with
  | nil => exact h.nil_eq
  | cons member members ih =>
    cases others with
    | nil => cases hsame
    | cons other others =>
      obtain ⟨hkey, hrest⟩ := cons.inj hsame
      rw [map_cons, nodup_cons] at hkeys
      have hhead : member = other := by
        rcases mem_cons.mp (h.mem_iff.mp mem_cons_self) with heq | hmem
        · exact heq
        · have := mem_map_of_mem (f := Prod.fst) hmem
          rw [← hrest] at this
          exact absurd this hkeys.1
      subst hhead
      rw [ih ((perm_cons _).mp h) hrest hkeys.2]

/-- Members with the same keys in the same order are equal when they are in order. -/
theorem eq_of_order_eq {α : Type} {members others : List (List UInt8 × α)}
    (h : order (fun member => quote member.1) members
      = order (fun member => quote member.1) others)
    (hsame : members.map Prod.fst = others.map Prod.fst)
    (hkeys : (members.map Prod.fst).Nodup) :
  members = others
  := by
  apply eq_of_perm_of_keys _ hsame hkeys
  exact (order_perm members).symm.trans (h ▸ order_perm others)

theorem sortMembers_eq_of_sorted {sort : Bool} {members others : List (List UInt8 × Printed)}
    (hothers : ReordersMembers members others) (hkeys : (members.map Prod.fst).Nodup)
    (h : sortTree names sort (.object (memberTrees others))
      = sortTree names sort (.object (memberTrees members))) :
  sortMembers names (memberTrees others) = sortMembers names (memberTrees members)
  := by
  simp only [sortTree, Tree.object.injEq] at h
  cases sort with
  | false => exact h
  | true =>
    apply eq_of_order_eq h
    · simpa using hothers.keys
    · simpa [hothers.keys] using hkeys

/-- The keys of entries, as they are put into order. -/
theorem keys_order (members : List (List UInt8 × Printed)) :
  (order (fun member => quote member.1) (sortMembers names (memberTrees members))).map Prod.fst
    = order quote (members.map Prod.fst)
  := by
  have h := @order_map _ _ quote Prod.fst (sortMembers names (memberTrees members))
  rw [keys_sortMembers, keys_memberTrees] at h
  exact h.symm

theorem tellsApart_of_sortTree {entries : List (List UInt8 × Printed)}
    (hkeys : (entries.map Prod.fst).Nodup)
    (h : ∀ others, entries.Perm others → sortTree names true (.object (memberTrees others))
      = sortTree names true (.object (memberTrees entries))) :
  TellsApart (entries.map Prod.fst)
  := by
  apply tellsApart_of_order_eq hkeys
  intro others hperm
  have hsorted := h others hperm
  simp only [sortTree, if_true, Tree.object.injEq] at hsorted
  rw [← @keys_order names, hsorted, keys_order]

/-- Members that are not put into order have one order only if there is one of them at most. -/
theorem length_le_one_of_sortTree {fields : List (List UInt8 × Printed)}
    (hkeys : (fields.map Prod.fst).Nodup)
    (h : ∀ others, fields.Perm others → sortTree names false (.object (memberTrees others))
      = sortTree names false (.object (memberTrees fields))) :
  fields.length ≤ 1
  := by
  match fields, hkeys, h with
  | [], _, _ => exact Nat.zero_le _
  | [_], _, _ => exact le_rfl
  | (key, _) :: (next, _) :: fields, hkeys, h =>
    have hsorted := h _ (.swap _ _ _)
    simp [sortTree, memberTrees, sortMembers] at hsorted
    obtain rfl : next = key := hsorted.1.1
    simp at hkeys

mutual

theorem canonical_of_sortTree : ∀ (printed : Printed) {sort : Bool}, printed.Named names sort →
    (∀ other, printed.Reorders other →
      sortTree names sort other.tree = sortTree names sort printed.tree) →
  printed.Canonical names sort
  | .scalar _, _, _, _ => trivial
  | .string _, _, _, _ => trivial
  | .array elements, sort, hnamed, h => by
    apply canonical_of_sortElements elements hnamed
    intro others hothers
    have := h (.array others) ⟨others, rfl, hothers⟩
    simpa [Printed.tree, sortTree] using this
  | .message fields, sort, hnamed, h => by
    apply canonical_of_sortMembers fields hnamed.2
    intro others hothers
    exact sortMembers_eq_of_sorted hothers hnamed.1 (h (.message others) ⟨others, rfl, hothers⟩)
  | .map entries, sort, hnamed, h => by
    obtain ⟨rfl, hkeys, hentries⟩ := hnamed
    constructor
    · apply tellsApart_of_sortTree hkeys
      intro others hperm
      exact h (.map others) ⟨_, _, rfl, reordersMembers_refl entries, hperm⟩
    · apply canonical_of_sortMembers entries hentries
      intro others hothers
      exact sortMembers_eq_of_sorted hothers hkeys
        (h (.map others) ⟨_, _, rfl, hothers, .refl _⟩)
  | .struct fields, sort, hnamed, h => by
    have hperm : ∀ others, fields.Perm others → sortTree names sort (.object (memberTrees others))
        = sortTree names sort (.object (memberTrees fields)) :=
      fun others hperm => h (.struct others) ⟨_, _, rfl, reordersMembers_refl fields, hperm⟩
    constructor
    · cases sort with
      | true => exact .inr ⟨rfl, tellsApart_of_sortTree hnamed.1 hperm⟩
      | false => exact .inl (length_le_one_of_sortTree hnamed.1 hperm)
    · apply canonical_of_sortMembers fields hnamed.2
      intro others hothers
      exact sortMembers_eq_of_sorted hothers hnamed.1
        (h (.struct others) ⟨_, _, rfl, hothers, .refl _⟩)

theorem canonical_of_sortElements : ∀ (elements : List Printed), NamedElements names elements →
    (∀ others, ReordersElements elements others →
      sortElements names (elementTrees others) = sortElements names (elementTrees elements)) →
  CanonicalElements names elements
  | [], _, _ => trivial
  | element :: elements, hnamed, h => by
    constructor
    · apply canonical_of_sortTree element hnamed.1
      intro other hother
      have := h (other :: elements) ⟨_, _, rfl, hother, reordersElements_refl elements⟩
      exact (List.cons.inj this).1
    · apply canonical_of_sortElements elements hnamed.2
      intro others hothers
      have := h (element :: others) ⟨_, _, rfl, reorders_refl element, hothers⟩
      exact (List.cons.inj this).2

theorem canonical_of_sortMembers : ∀ (members : List (List UInt8 × Printed)),
    NamedMembers names members →
    (∀ others, ReordersMembers members others →
      sortMembers names (memberTrees others) = sortMembers names (memberTrees members)) →
  CanonicalMembers names members
  | [], _, _ => trivial
  | (key, member) :: members, hnamed, h => by
    constructor
    · apply canonical_of_sortTree member hnamed.1
      intro other hother
      have := h ((key, other) :: members) ⟨_, _, rfl, hother, reordersMembers_refl members⟩
      exact (Prod.mk.inj (List.cons.inj this).1).2
    · apply canonical_of_sortMembers members hnamed.2
      intro others hothers
      have := h ((key, member) :: others) ⟨_, _, rfl, reorders_refl member, hothers⟩
      exact (List.cons.inj this).2

end

/-! ### The texts of a message -/

mutual

theorem same_of_reorders : ∀ (printed : Printed) {other : Printed}, printed.Reorders other →
  Same printed.tree other.tree
  | .scalar _, _, rfl => rfl
  | .string _, _, rfl => rfl
  | .array elements, _, ⟨_, rfl, h⟩ => ⟨_, rfl, sameElements_of_reorders elements h⟩
  | .message fields, _, ⟨_, rfl, h⟩ => ⟨_, _, rfl, sameMembers_of_reorders fields h, .refl _⟩
  | .map entries, _, ⟨_, _, rfl, h, hperm⟩ => by
    refine ⟨_, _, rfl, sameMembers_of_reorders entries h, ?_⟩
    rw [memberTrees_eq_map, memberTrees_eq_map]
    exact hperm.map _
  | .struct fields, _, ⟨_, _, rfl, h, hperm⟩ => by
    refine ⟨_, _, rfl, sameMembers_of_reorders fields h, ?_⟩
    rw [memberTrees_eq_map, memberTrees_eq_map]
    exact hperm.map _

theorem sameElements_of_reorders : ∀ (elements : List Printed) {others : List Printed},
    ReordersElements elements others →
  SameElements (elementTrees elements) (elementTrees others)
  | [], _, rfl => rfl
  | element :: elements, _, ⟨_, _, rfl, h, hrest⟩ =>
    ⟨_, _, rfl, same_of_reorders element h, sameElements_of_reorders elements hrest⟩

theorem sameMembers_of_reorders : ∀ (members : List (List UInt8 × Printed))
    {others : List (List UInt8 × Printed)}, ReordersMembers members others →
  SameMembers (memberTrees members) (memberTrees others)
  | [], _, rfl => rfl
  | (_, member) :: members, _, ⟨_, _, rfl, h, hrest⟩ =>
    ⟨_, _, rfl, same_of_reorders member h, sameMembers_of_reorders members hrest⟩

end

/-- Every text of a message is sorted into one of the same value, which sorting leaves alone. -/
def KeepsValue (names : List (List UInt8)) (printed : Printed) : Prop :=
  ∀ other text, printed.Reorders other → Spelled other.tree text →
    ∃ out sorted, sortMapObjects text names = .ok out ∧ parse out = some sorted ∧
      Same other.tree sorted ∧ sortMapObjects out names = .ok out

/-- All texts of a message are sorted into one. -/
def OneForm (names : List (List UInt8)) (printed : Printed) : Prop :=
  ∀ first second text other, printed.Reorders first → printed.Reorders second →
    Spelled first.tree text → Spelled second.tree other →
      sortMapObjects text names = sortMapObjects other names

variable {names : List (List UInt8)} {printed : Printed} {text : List UInt8}

theorem wellFormed_of_spelled {tree : Tree} (h : Spelled tree text) :
  WellFormed tree
  := by
  obtain ⟨_, _, _, _, hinside, _⟩ := h
  exact wellFormed_of_spells tree hinside

theorem wellFormed_sortTree {tree : Tree} (h : WellFormed tree) (sort : Bool) :
  WellFormed (sortTree names sort tree)
  := wellFormed_of_same tree (same_sortTree names sort tree) h

theorem keepsValue (names : List (List UInt8)) (printed : Printed) :
  KeepsValue names printed
  := by
  intro other text _ hspelled
  have hsorted := @spelled_compact (sortTree names false other.tree)
    (wellFormed_sortTree (wellFormed_of_spelled hspelled) false)
  refine ⟨_, sortTree names false other.tree, sortMapObjects_of_spelled hspelled names,
    parse_of_spelled hsorted, same_sortTree names false _, ?_⟩
  rw [sortMapObjects_of_spelled hsorted, sortTree_sortTree]

/-- A message has one form exactly when it is canonical, which its texts without white space
tell. -/
theorem oneForm_iff (hnamed : printed.Named names false) (h : Spelled printed.tree text) :
  (OneForm names printed ↔ printed.Canonical names false) ∧
    (¬ printed.Canonical names false → ∃ other, printed.Reorders other ∧
      sortMapObjects (compact other.tree) names ≠ sortMapObjects (compact printed.tree) names)
  := by
  have hwell : ∀ other, printed.Reorders other → WellFormed other.tree := fun other hother =>
    wellFormed_of_same printed.tree (same_of_reorders printed hother) (wellFormed_of_spelled h)
  have hcompact : (∀ other, printed.Reorders other →
      sortMapObjects (compact other.tree) names = sortMapObjects (compact printed.tree) names) →
      printed.Canonical names false := by
    intro hsame
    apply canonical_of_sortTree printed hnamed
    intro other hother
    have hout := hsame other hother
    rw [sortMapObjects_of_spelled (spelled_compact (hwell other hother)),
      sortMapObjects_of_spelled (spelled_compact (hwell printed (reorders_refl printed)))] at hout
    exact compact_injOn (wellFormed_sortTree (hwell other hother) false)
      (wellFormed_sortTree (hwell printed (reorders_refl printed)) false) (Except.ok.inj hout)
  refine ⟨⟨?_, ?_⟩, ?_⟩
  · intro hform
    apply hcompact
    intro other hother
    exact hform other printed _ _ hother (reorders_refl printed)
      (spelled_compact (hwell other hother))
      (spelled_compact (hwell printed (reorders_refl printed)))
  · intro hcanonical first second text other hfirst hsecond htext hother
    rw [sortMapObjects_of_spelled htext, sortMapObjects_of_spelled hother,
      sortTree_of_reorders printed hnamed hcanonical hfirst,
      sortTree_of_reorders printed hnamed hcanonical hsecond]
  · intro hcanonical
    by_contra hnone
    push Not at hnone
    exact hcanonical (hcompact hnone)

variable {pool : DescriptorPool}

theorem named_of_serializes {root : ℕ} (h : printed.Serializes pool root) :
  printed.Named (mapFieldNames pool root) false
  := by
  apply named_of_shows printed h
  · intro hmap
    cases hmap
  · intro descriptor hdescriptor
    obtain rfl := FieldType.message.inj hdescriptor
    exact .root

/-- The texts of a message keep their value when their keys are put into order, and are put into
one form exactly when no `Struct` with two fields stands under another name than that of a map
field and no map with integers for keys has one of them twice. -/
theorem sortMapObjects_canonical (pool : DescriptorPool) (root : ℕ) (printed : Printed)
    (text : List UInt8) (hserializes : printed.Serializes pool root)
    (h : Spelled printed.tree text) :
  (KeepsValue (mapFieldNames pool root) printed ∧ OneForm (mapFieldNames pool root) printed ↔
    printed.Canonical (mapFieldNames pool root) false) ∧
  KeepsValue (mapFieldNames pool root) printed ∧
  (¬ printed.Canonical (mapFieldNames pool root) false → ∃ other, printed.Reorders other ∧
    sortMapObjects (compact other.tree) (mapFieldNames pool root)
      ≠ sortMapObjects (compact printed.tree) (mapFieldNames pool root))
  := by
  obtain ⟨hform, hcompact⟩ := oneForm_iff (named_of_serializes hserializes) h
  have hvalue := keepsValue (mapFieldNames pool root) printed
  refine ⟨?_, hvalue, hcompact⟩
  rw [hform]
  exact ⟨fun h => h.2, fun h => ⟨hvalue, h⟩⟩

/-- The bytes of an ASCII text. -/
def ascii (text : String) : List UInt8 :=
  text.toList.map fun c => .ofNat c.toNat

/-- The descriptors of `Document` on the way to the custom fields of the body. -/
def documentPool : DescriptorPool :=
  [⟨[⟨ascii "body", .message 1, false, false⟩], .ordinary⟩,
    ⟨[⟨ascii "meta", .message 2, false, false⟩], .ordinary⟩,
    ⟨[⟨ascii "custom_fields", .message 3, true, false⟩], .ordinary⟩,
    ⟨[⟨ascii "struct_value", .message 4, false, false⟩,
      ⟨ascii "list_value", .message 5, false, false⟩], .value⟩,
    ⟨[⟨ascii "fields", .message 3, true, false⟩], .struct⟩,
    ⟨[⟨ascii "values", .message 3, false, true⟩], .listValue⟩]

variable {names : List (List UInt8)}

theorem run_message {seen : Finset ℕ} {descriptor : ℕ} {pending : List FieldType}
    {found : Descriptor} (hfound : pool[descriptor]? = some found) (hseen : descriptor ∉ seen) :
  NameWalk.run pool ⟨names, seen, .message descriptor :: pending⟩
    = NameWalk.run pool (NameWalk.visit descriptor found.fields ⟨names, seen, pending⟩)
  := by
  rw [NameWalk.run]
  simp only [hseen, dite_false]
  split
  case h_1 h => simp [hfound] at h
  case h_2 other h =>
    rw [hfound] at h
    cases h
    rfl

theorem run_seen {seen : Finset ℕ} {descriptor : ℕ} {pending : List FieldType}
    (hseen : descriptor ∈ seen) :
  NameWalk.run pool ⟨names, seen, .message descriptor :: pending⟩
    = NameWalk.run pool ⟨names, seen, pending⟩
  := by
  rw [NameWalk.run]
  simp only [hseen, dite_true]

theorem run_nil {seen : Finset ℕ} :
  NameWalk.run pool ⟨names, seen, []⟩ = ⟨names, seen, []⟩
  := by
  rw [NameWalk.run]

theorem mapFieldNames_documentPool :
  mapFieldNames documentPool 0 = [ascii "custom_fields", ascii "fields"]
  := by
  have hrun : NameWalk.run documentPool { pending := [.message 0] }
      = ⟨[ascii "custom_fields", ascii "fields"], {4, 5, 3, 2, 1, 0}, []⟩ := by
    refine (run_message rfl (by decide)).trans ?_
    refine (run_message rfl (by decide)).trans ?_
    refine (run_message rfl (by decide)).trans ?_
    refine (run_message rfl (by decide)).trans ?_
    refine (run_message rfl (by decide)).trans ?_
    refine (run_seen (by decide)).trans ?_
    refine (run_message rfl (by decide)).trans ?_
    refine (run_seen (by decide)).trans ?_
    exact run_nil
  rw [mapFieldNames, hrun]

/-- A document whose body has one custom field. -/
def customField (value : Printed) : Printed :=
  .message [(ascii "body", .message [(ascii "meta", .message [(ascii "custom_fields",
    .map [(ascii "x", value)])])])]

/-- A custom field with a `Struct` of two fields. -/
def structField : Printed :=
  .struct [(ascii "b", .scalar (ascii "1")), (ascii "a", .scalar (ascii "2"))]

theorem serializes_customField {value : Printed}
    (hshows : value.Shows documentPool (elementField (.message 3))) :
  (customField value).Serializes documentPool 0
  := by
  refine ⟨rfl, rfl, 0, _, rfl, rfl, rfl, nodup_singleton _,
    ⟨_, mem_cons_self, rfl, ?_⟩, trivial⟩
  refine ⟨rfl, rfl, 1, _, rfl, rfl, rfl, nodup_singleton _,
    ⟨_, mem_cons_self, rfl, ?_⟩, trivial⟩
  refine ⟨rfl, rfl, 2, _, rfl, rfl, rfl, nodup_singleton _,
    ⟨_, mem_cons_self, rfl, ?_⟩, trivial⟩
  exact ⟨rfl, nodup_singleton _, hshows, trivial⟩

/-- The text of a document with this field. -/
def structText : List UInt8 :=
  ascii "\x7b\"body\":\x7b\"meta\":\x7b\"custom_fields\":\x7b\"x\":\x7b\"b\":1,\"a\":2\x7d\x7d\x7d\x7d\x7d"

/-- The printer may write the fields of a `Struct` in either order, and the text stays as it is
written. -/
theorem not_oneForm_structField :
  ((customField structField).Serializes documentPool 0 ∧
    Spelled (customField structField).tree structText) ∧
  ¬ OneForm (mapFieldNames documentPool 0) (customField structField)
  := by
  have hserializes : (customField structField).Serializes documentPool 0 := by
    apply serializes_customField
    exact ⟨rfl, rfl, .inl ⟨3, _, rfl, rfl, rfl⟩, by decide, trivial, trivial, trivial⟩
  have hwell : WellFormed (customField structField).tree := by
    refine ⟨⟨rfl, ⟨⟨rfl, ⟨⟨rfl, ⟨⟨rfl, ?_⟩, trivial⟩⟩, trivial⟩⟩, trivial⟩⟩, trivial⟩
    exact ⟨⟨rfl, rfl⟩, ⟨rfl, rfl⟩, trivial⟩
  have hspelled : Spelled (customField structField).tree structText := spelled_compact hwell
  refine ⟨⟨hserializes, hspelled⟩, ?_⟩
  rw [(oneForm_iff (named_of_serializes hserializes) hspelled).1, mapFieldNames_documentPool]
  rintro ⟨⟨⟨⟨-, ⟨⟨hlength | ⟨hname, -⟩, -⟩, -⟩⟩, -⟩, -⟩, -⟩
  · exact absurd hlength (by decide)
  · exact absurd hname (by decide)

/-- A `Struct` of one field has one text. -/
theorem sortMapObjects_canonical_oneField :
  OneForm (mapFieldNames documentPool 0)
    (customField (.struct [(ascii "b", .scalar (ascii "1"))]))
  := by
  have hserializes : (customField (.struct [(ascii "b", .scalar (ascii "1"))])).Serializes
      documentPool 0 := by
    apply serializes_customField
    exact ⟨rfl, rfl, .inl ⟨3, _, rfl, rfl, rfl⟩, List.nodup_singleton _, trivial, trivial⟩
  have hwell : WellFormed (customField (.struct [(ascii "b", .scalar (ascii "1"))])).tree := by
    refine ⟨⟨rfl, ⟨⟨rfl, ⟨⟨rfl, ⟨⟨rfl, ?_⟩, trivial⟩⟩, trivial⟩⟩, trivial⟩⟩, trivial⟩
    exact ⟨⟨rfl, rfl⟩, trivial⟩
  apply ((sortMapObjects_canonical documentPool 0 _ _ hserializes (spelled_compact hwell)).1.mpr
    _).2
  refine ⟨⟨⟨⟨fun _ => List.nodup_singleton _, ⟨⟨.inl le_rfl, ?_⟩, trivial⟩⟩, trivial⟩, trivial⟩,
    trivial⟩
  exact ⟨trivial, trivial⟩

end GRParse.Render
