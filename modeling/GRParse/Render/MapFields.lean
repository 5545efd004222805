import Mathlib.Data.Finset.Card

/-!
# The names of map fields

The descriptors of a schema refer to each other through the types of their fields.  The names of
the map fields that can be reached from a descriptor are collected with a stack of descriptors
that are still to be seen.
-/

namespace GRParse.Render

open List Finset

/-! ### Descriptors -/

/-- The type of a field, or of the values of a map field. -/
inductive FieldType
  | scalar
  | message (descriptor : ℕ)
  deriving DecidableEq

structure FieldDescriptor where
  name : List UInt8
  type : FieldType
  isMap : Bool := false
  isRepeated : Bool := false
  deriving DecidableEq

/-- How the printer writes a message: an ordinary one as an object of its fields, the well-known
types of `struct.proto` as the values they stand for, and some as a string. -/
inductive Form
  | ordinary
  | struct
  | value
  | listValue
  | string
  deriving DecidableEq

structure Descriptor where
  fields : List FieldDescriptor
  form : Form := .ordinary
  deriving DecidableEq

/-- The descriptors, by their numbers. -/
abbrev DescriptorPool := List Descriptor

variable (pool : DescriptorPool)

/-! ### Collecting the names -/

/-- The sets and the stack of `map_field_names`. -/
structure NameWalk where
  names : List (List UInt8) := []
  seen : Finset ℕ := ∅
  pending : List FieldType
  deriving DecidableEq

/-- What is still to be seen for a field. -/
def pendingOf (field : FieldDescriptor) : List FieldType :=
  if field.isMap then [field.type]
  else match field.type with
    | .scalar => []
    | .message descriptor => [.message descriptor]

/-- A descriptor that was not seen before. -/
def NameWalk.visit (descriptor : ℕ) (fields : List FieldDescriptor) (walk : NameWalk) : NameWalk where
  names := walk.names ++ (fields.filter (·.isMap)).map (·.name)
  seen := insert descriptor walk.seen
  pending := (fields.flatMap pendingOf).reverse ++ walk.pending

theorem card_unseen_lt {n descriptor : ℕ} {seen : Finset ℕ} (hseen : descriptor ∉ seen)
    (hlt : descriptor < n) :
  (Finset.range n \ insert descriptor seen).card < (Finset.range n \ seen).card
  := by
  apply Finset.card_lt_card
  refine ⟨Finset.sdiff_subset_sdiff le_rfl (Finset.subset_insert _ _), fun h => ?_⟩
  have := h (Finset.mem_sdiff.mpr ⟨Finset.mem_range.mpr hlt, hseen⟩)
  simp at this

/-- The loop of `map_field_names`. -/
def NameWalk.run (walk : NameWalk) : NameWalk :=
  match _h : walk.pending with
  | [] => walk
  | .scalar :: pending => run { walk with pending := pending }
  | .message descriptor :: pending =>
    if _hseen : descriptor ∈ walk.seen then run { walk with pending := pending }
    else
      match _hfound : pool[descriptor]? with
      | none => run { walk with pending := pending }
      | some found => run ({ walk with pending := pending }.visit descriptor found.fields)
termination_by ((Finset.range pool.length \ walk.seen).card, walk.pending.length)
decreasing_by
  · exact Prod.Lex.right _ (by simp [_h])
  · exact Prod.Lex.right _ (by simp [_h])
  · exact Prod.Lex.right _ (by simp [_h])
  · exact Prod.Lex.left _ _ (card_unseen_lt _hseen (List.getElem?_eq_some_iff.mp _hfound).1)

/-- `map_field_names`. -/
def mapFieldNames (root : ℕ) : List (List UInt8) :=
  (NameWalk.run pool { pending := [.message root] }).names

/-! ### Every map field that is reached -/

/-- The descriptors that are reached from one by the types of fields. -/
inductive Reached (root : ℕ) : ℕ → Prop
  | root : Reached root root
  | field {descriptor next : ℕ} {found : Descriptor} {field : FieldDescriptor} :
    Reached root descriptor → pool[descriptor]? = some found → field ∈ found.fields →
      field.type = .message next → Reached root next

/-- What was seen has its names among those collected, and what it leads to is seen or pending. -/
structure NameWalk.Sound (walk : NameWalk) : Prop where
  name : ∀ descriptor ∈ walk.seen, ∀ found, pool[descriptor]? = some found →
    ∀ field ∈ found.fields, field.isMap → field.name ∈ walk.names
  next : ∀ descriptor ∈ walk.seen, ∀ found, pool[descriptor]? = some found →
    ∀ field ∈ found.fields, ∀ next, field.type = .message next →
      next < pool.length → next ∈ walk.seen ∨ FieldType.message next ∈ walk.pending

variable {pool}

theorem mem_pendingOf {field : FieldDescriptor} {next : ℕ} (h : field.type = .message next) :
  FieldType.message next ∈ pendingOf field
  := by
  cases hmap : field.isMap
  · simp [pendingOf, hmap, h]
  · simp [pendingOf, hmap, h]

/-- A type that leads nowhere new may be passed by. -/
theorem NameWalk.Sound.skip {walk : NameWalk} (h : walk.Sound pool) {type : FieldType}
    {pending : List FieldType} (hpending : walk.pending = type :: pending)
    (htype : ∀ next, type = .message next → next < pool.length → next ∈ walk.seen) :
  ({ walk with pending := pending } : NameWalk).Sound pool
  := by
  refine ⟨h.name, ?_⟩
  intro descriptor hdescriptor found hfound field hfield next hnext hlt
  rcases h.next descriptor hdescriptor found hfound field hfield next hnext hlt with hseen | hmem
  · exact .inl hseen
  · rw [hpending] at hmem
    rcases mem_cons.mp hmem with heq | hmem
    · exact .inl (htype next heq.symm hlt)
    · exact .inr hmem

theorem NameWalk.Sound.visit {walk : NameWalk} (h : walk.Sound pool) {descriptor : ℕ}
    {pending : List FieldType} (hpending : walk.pending = .message descriptor :: pending)
    {found : Descriptor} (hfound : pool[descriptor]? = some found) :
  (({ walk with pending := pending } : NameWalk).visit descriptor found.fields).Sound pool
  := by
  constructor
  · intro other hother found' hfound' field hfield hmap
    rcases mem_insert.mp hother with rfl | hother
    · obtain rfl := Option.some.inj (hfound.symm.trans hfound')
      apply mem_append_right
      exact mem_map_of_mem (mem_filter.mpr ⟨hfield, hmap⟩)
    · apply mem_append_left
      exact h.name other hother found' hfound' field hfield hmap
  · intro other hother found' hfound' field hfield next hnext hlt
    rcases mem_insert.mp hother with rfl | hother
    · obtain rfl := Option.some.inj (hfound.symm.trans hfound')
      right
      apply mem_append_left
      rw [mem_reverse]
      exact mem_flatMap.mpr ⟨field, hfield, mem_pendingOf hnext⟩
    · rcases h.next other hother found' hfound' field hfield next hnext hlt with hseen | hmem
      · exact .inl (mem_insert_of_mem hseen)
      · rw [hpending] at hmem
        rcases mem_cons.mp hmem with heq | hmem
        · obtain rfl := FieldType.message.inj heq
          exact .inl (mem_insert_self _ _)
        · exact .inr (mem_append_right _ hmem)

/-- The walk keeps what it has seen, sees what is pending, and ends with nothing pending. -/
theorem NameWalk.run_spec (walk : NameWalk) (h : walk.Sound pool) :
  (walk.run pool).Sound pool ∧ (walk.run pool).pending = [] ∧ walk.seen ⊆ (walk.run pool).seen ∧
    ∀ next, FieldType.message next ∈ walk.pending → next < pool.length →
      next ∈ (walk.run pool).seen
  := by
  fun_induction NameWalk.run pool walk with
  | case1 walk hpending =>
    refine ⟨h, hpending, le_rfl, ?_⟩
    rw [hpending]
    intro next hnext
    cases hnext
  | case2 walk pending hpending ih =>
    obtain ⟨hsound, hend, hseen, hnext⟩ := ih (h.skip hpending (by simp))
    refine ⟨hsound, hend, hseen, ?_⟩
    rw [hpending]
    intro next hmem
    apply hnext next
    simpa using hmem
  | case3 walk descriptor pending hpending hdescriptor ih =>
    obtain ⟨hsound, hend, hseen, hnext⟩ := ih (h.skip hpending (by
      rintro next heq -
      obtain rfl := FieldType.message.inj heq
      exact hdescriptor))
    refine ⟨hsound, hend, hseen, ?_⟩
    rw [hpending]
    intro next hmem hlt
    rcases mem_cons.mp hmem with heq | hmem
    · obtain rfl := FieldType.message.inj heq
      exact hseen hdescriptor
    · exact hnext next hmem hlt
  | case4 walk descriptor pending hpending hdescriptor hfound ih =>
    have habsent : ∀ next, FieldType.message descriptor = .message next → ¬ next < pool.length := by
      rintro next heq
      obtain rfl := FieldType.message.inj heq
      simpa using hfound
    obtain ⟨hsound, hend, hseen, hnext⟩ := ih (h.skip hpending
      fun next heq hlt => absurd hlt (habsent next heq))
    refine ⟨hsound, hend, hseen, ?_⟩
    rw [hpending]
    intro next hmem hlt
    rcases mem_cons.mp hmem with heq | hmem
    · exact absurd hlt (habsent next heq.symm)
    · exact hnext next hmem hlt
  | case5 walk descriptor pending hpending hdescriptor found hfound ih =>
    obtain ⟨hsound, hend, hseen, hnext⟩ := ih (h.visit hpending hfound)
    refine ⟨hsound, hend, (Finset.subset_insert _ _).trans hseen, ?_⟩
    rw [hpending]
    intro next hmem hlt
    rcases mem_cons.mp hmem with heq | hmem
    · obtain rfl := FieldType.message.inj heq
      exact hseen (Finset.mem_insert_self _ _)
    · exact hnext next (mem_append_right _ hmem) hlt

/-- The name of every map field that is reached is collected. -/
theorem mem_mapFieldNames {root descriptor : ℕ} {found : Descriptor} {field : FieldDescriptor}
    (h : Reached pool root descriptor) (hfound : pool[descriptor]? = some found)
    (hfield : field ∈ found.fields) (hmap : field.isMap) :
  field.name ∈ mapFieldNames pool root
  := by
  have hsound : ({ pending := [.message root] } : NameWalk).Sound pool :=
    ⟨fun _ hmem => absurd hmem (notMem_empty _),
      fun _ hmem => absurd hmem (notMem_empty _)⟩
  obtain ⟨hend, hpending, -, hroot⟩ := NameWalk.run_spec _ hsound
  have hseen : ∀ descriptor, Reached pool root descriptor → descriptor < pool.length →
      descriptor ∈ (NameWalk.run pool { pending := [.message root] }).seen := by
    intro descriptor hreached
    induction hreached with
    | root => exact hroot root List.mem_cons_self
    | field hreached hfound hfield htype ih =>
      intro hlt
      have hmem := ih (List.getElem?_eq_some_iff.mp hfound).1
      rcases hend.next _ hmem _ hfound _ hfield _ htype hlt with hseen | hmem
      · exact hseen
      · rw [hpending] at hmem
        cases hmem
  exact hend.name _ (hseen _ h (List.getElem?_eq_some_iff.mp hfound).1) _ hfound _ hfield hmap

end GRParse.Render
