import GRParse.Layout.Geometry
import GRParse.Lib.Visit
import Mathlib.Data.List.TakeWhile
import Mathlib.Data.Rat.Floor

/-!
# The migration of the furniture tree

`migrate_furniture_tree` moves the children of the furniture tree into the body.  One cursor goes
through the located ones, sorted by page, while the body is copied: a header is put before the
first body item of its page, and a footer before the first body item of a later page.  In a body
whose pages are in order that is behind the last item of its page.
-/

namespace GRParse.Layout

open Containers Protobuf Sorting List

/-! ### Nodes -/

/-- What `all_nodes` reaches of every node, in arena order. -/
structure TreeNode where
  ref : String
  parent : Option RefItem := none
  layer : ContentLayer := .unspecified
  children : List RefItem := []
  deriving DecidableEq

/-- A document with a furniture tree. -/
structure TreeDocument extends Document where
  furniture : List RefItem := []
  nodes : List TreeNode := []

def kBodyRef : String := "#/body"

/-- `index_nodes`: the first node under a reference. -/
def indexNodes (nodes : List TreeNode) (ref : String) : Option (Fin nodes.length) :=
  nodes.findFinIdx? (·.ref = ref)

/-- The nodes that the children of a node name. -/
def childNodes (nodes : List TreeNode) (node : Fin nodes.length) : List (Fin nodes.length) :=
  nodes[node].children.filterMap fun child => indexNodes nodes child.ref

/-- What `set_parent` and `mark_furniture` do to the nodes for the given children of the furniture:
these move below the body, and what they lead to leaves the body layer. -/
def markNodes (nodes : List TreeNode) (furniture : List RefItem) : List TreeNode :=
  let moved := furniture.filterMap fun child => indexNodes nodes child.ref
  let seen := Visit.visit (childNodes nodes) ∅ moved
  List.ofFn fun i =>
    { nodes[i] with
      parent := if i ∈ moved then some ⟨kBodyRef⟩ else nodes[i].parent
      layer := if i ∈ seen ∧ nodes[i].layer = .body then .furniture else nodes[i].layer }

/-! ### Headers and footers -/

/-- A child of the furniture tree on its way out. -/
structure Moved where
  ref : RefItem
  footer : Bool := false
  /-- Zero when the item names no usable page. -/
  page : ℤ := 0
  /-- The line band, the left edge and the source order. -/
  key : ℤ × ℚ × ℕ := (0, 0, 0)
  deriving DecidableEq

/-- `std::lround`. -/
def lround (x : ℚ) : ℤ :=
  if 0 ≤ x then ⌊x + 1 / 2⌋ else -⌊-x + 1 / 2⌋

/-- The key that `moved_before` compares by. -/
def Moved.order (moved : Moved) : ℤ ×ₗ Bool ×ₗ ℤ ×ₗ ℚ ×ₗ ℕ :=
  toLex (moved.page, toLex (moved.footer, toLex (moved.key.1, toLex moved.key.2)))

/-- What a child of the furniture becomes, at its position. -/
def TreeDocument.moved (document : TreeDocument) (child : RefItem) (position : ℕ) : Moved :=
  let heights := documentPageHeights document.toDocument
  let placement := document.itemPlacement heights child.ref
  let label := document.itemLabel child.ref
  let footer := match placement with
    | some placement =>
      label = .pageFooter || (label ≠ .pageHeader &&
        (heights placement.page).any fun height =>
          height / 2 < (placement.box.top + placement.box.bottom) / 2)
    | none => label = .pageFooter
  match placement with
  | some placement =>
    ⟨child, footer, placement.page, lround (placement.box.top / 12), placement.box.left, position⟩
  | none => ⟨child, footer, 0, 0, 0, position⟩

/-- The children of the furniture tree, with what they become. -/
def TreeDocument.movedChildren (document : TreeDocument) : List Moved :=
  document.furniture.zipIdx.map fun (child, position) => document.moved child position

/-- Whether the item has a page. -/
def Moved.located (moved : Moved) : Bool :=
  moved.page ≠ 0

/-- The located headers and footers, in the order in which the cursor passes them. -/
def TreeDocument.located (document : TreeDocument) : List Moved :=
  sortOn Moved.order (document.movedChildren.filter Moved.located)

/-! ### The new body -/

/-- A child of the new body, with where it comes from. -/
inductive BodyEntry where
  | moved (moved : Moved)
  | kept (child : RefItem) (page : Option ℤ)
  deriving DecidableEq

def BodyEntry.ref : BodyEntry → RefItem
  | .moved item => item.ref
  | .kept child _ => child

/-- The child, if the old body had it. -/
def BodyEntry.keptChild : BodyEntry → Option RefItem
  | .moved _ => none
  | .kept child _ => some child

/-- The cursor passes an item before a body item of the given page. -/
def Moved.goesBefore (page : ℤ) (moved : Moved) : Bool :=
  moved.page < page || (moved.page = page && !moved.footer)

/-- The body with the located items, as the cursor passes them. -/
def mergeBody : List (RefItem × Option ℤ) → List Moved → List BodyEntry
  | [], located => located.map .moved
  | (child, none) :: body, located => .kept child none :: mergeBody body located
  | (child, some page) :: body, located =>
    (located.takeWhile (·.goesBefore page)).map .moved ++
      .kept child (some page) :: mergeBody body (located.dropWhile (·.goesBefore page))

/-- The children of the body with the pages they are on. -/
def TreeDocument.bodyPages (document : TreeDocument) : List (RefItem × Option ℤ) :=
  document.children.map fun child =>
    (child, (document.itemPlacement (documentPageHeights document.toDocument) child.ref).map
      ItemPlacement.page)

/-- The children of the new body. -/
def TreeDocument.merged (document : TreeDocument) : List BodyEntry :=
  let leading := document.movedChildren.filter fun moved => !moved.located && !moved.footer
  let trailing := document.movedChildren.filter fun moved => !moved.located && moved.footer
  let located := document.located
  let body := document.bodyPages
  leading.map .moved ++
    (if body.any fun (_, page) => page.isSome then mergeBody body located
      else (located.filter (!·.footer)).map .moved ++
        body.map (fun (child, page) => .kept child page) ++
        (located.filter (·.footer)).map .moved) ++
    trailing.map .moved

/-- `migrate_furniture_tree`, with the number of children moved. -/
def migrateFurnitureTree (document : TreeDocument) : TreeDocument × ℕ :=
  if document.furniture.isEmpty then (document, 0)
  else
    ({ document with
        body := some { document.body.getD {} with children := document.merged.map BodyEntry.ref }
        furniture := []
        nodes := markNodes document.nodes document.furniture },
      document.furniture.length)

/-! ### Nothing is lost -/

theorem mergeBody_perm (body : List (RefItem × Option ℤ)) (located : List Moved) :
  (mergeBody body located).Perm
    (body.map (fun (child, page) => .kept child page) ++ located.map .moved)
  := by
  fun_induction mergeBody body located with
  | case1 located => exact .refl _
  | case2 child body located ih => exact ih.cons _
  | case3 child page body located ih =>
    have hsplit := congrArg (map BodyEntry.moved)
      (takeWhile_append_dropWhile (p := (·.goesBefore page)) (l := located))
    rw [map_append] at hsplit
    rw [← hsplit, map_cons, cons_append]
    refine perm_middle.trans (List.Perm.cons _ ?_)
    refine (ih.append_left _).trans ?_
    rw [← append_assoc, ← append_assoc]
    exact perm_append_comm.append_right _

theorem filterMap_keptChild_moved (items : List Moved) :
  (items.map BodyEntry.moved).filterMap BodyEntry.keptChild = []
  := by
  rw [filterMap_map]
  exact filterMap_eq_nil_iff.mpr fun _ _ => rfl

theorem filterMap_mergeBody (body : List (RefItem × Option ℤ)) (located : List Moved) :
  (mergeBody body located).filterMap BodyEntry.keptChild = body.map Prod.fst
  := by
  fun_induction mergeBody body located with
  | case1 located => exact filterMap_keptChild_moved _
  | case2 child body located ih => simpa [BodyEntry.keptChild] using ih
  | case3 child page body located ih =>
    rw [filterMap_append, filterMap_keptChild_moved, nil_append, filterMap_cons, ih]
    rfl

/-! ### The order -/

/-- The first entry stands before the second although their page puts it behind it. -/
def Misplaced : BodyEntry → BodyEntry → Prop
  | .kept _ page, .moved item => item.located ∧ item.footer = false ∧ page = some item.page
  | .moved item, .kept _ page => item.located ∧ item.footer ∧ page = some item.page
  | _, _ => False

/-- No item of the page stands behind an item of a later page. -/
def PageInOrder (page : ℤ) (body : List (RefItem × Option ℤ)) : Prop :=
  body.Pairwise fun before after => after.2 = some page → ∀ first ∈ before.2, first ≤ page

theorem mem_mergeBody {body : List (RefItem × Option ℤ)} {located : List Moved}
    {entry : BodyEntry} :
  entry ∈ mergeBody body located ↔
    (∃ child ∈ body, entry = .kept child.1 child.2) ∨ ∃ item ∈ located, entry = .moved item
  := by
  rw [(mergeBody_perm body located).mem_iff, mem_append, mem_map, mem_map]
  simp only [eq_comm]

/-- Items are sorted by their pages, headers before footers. -/
theorem Moved.le_of_order {a b : Moved} (h : a.order ≤ b.order) :
  a.page < b.page ∨ a.page = b.page ∧ (a.footer = true → b.footer = true)
  := by
  obtain hpage | ⟨hpage, hrest⟩ := Prod.Lex.toLex_le_toLex.mp h
  · exact .inl hpage
  · refine .inr ⟨hpage, fun hfooter => ?_⟩
    obtain hfooters | ⟨hfooters, -⟩ := Prod.Lex.toLex_le_toLex.mp hrest
    · rw [hfooter] at hfooters
      exact absurd hfooters (by simp)
    · exact hfooters.symm.trans hfooter

theorem goesBefore_eq_false {page : ℤ} {item : Moved} :
  item.goesBefore page = false ↔ page ≤ item.page ∧ (item.footer = false → page ≠ item.page)
  := by
  simp only [Moved.goesBefore, Bool.or_eq_false_iff, decide_eq_false_iff_not, not_lt,
    Bool.and_eq_false_imp, decide_eq_true_eq, Bool.not_eq_false', and_congr_right_iff]
  intro _
  constructor
  · intro h hheader heq
    rw [h heq.symm] at hheader
    cases hheader
  · intro h heq
    by_contra hheader
    exact h (by simpa using hheader) heq.symm

/-- The items behind the cursor go behind the page. -/
theorem goesBefore_of_mem_dropWhile {page : ℤ} {located : List Moved}
    (sorted : located.Pairwise fun a b => a.order ≤ b.order) {item : Moved}
    (h : item ∈ located.dropWhile (·.goesBefore page)) :
  item.goesBefore page = false
  := by
  induction located with
  | nil => cases h
  | cons first located ih =>
    rw [dropWhile_cons] at h
    split at h
    case isTrue => exact ih sorted.of_cons h
    case isFalse hfirst =>
      obtain rfl | hmem := mem_cons.mp h
      · simpa using hfirst
      · obtain ⟨hle, hheader⟩ := goesBefore_eq_false.mp (Bool.not_eq_true _ ▸ hfirst)
        rw [goesBefore_eq_false]
        obtain hpage | ⟨hpage, hfooter⟩ :=
          Moved.le_of_order ((pairwise_cons.mp sorted).1 item hmem)
        · exact ⟨by omega, fun _ => by omega⟩
        · refine ⟨by omega, fun hitem heq => ?_⟩
          have hfirstFooter : first.footer = true := by
            by_contra hnot
            exact hheader (by simpa using hnot) (by omega)
          rw [hfooter hfirstFooter] at hitem
          cases hitem

/-- The body is in place exactly when the items of the pages of the footers are in order. -/
theorem mergeBody_placed_iff (body : List (RefItem × Option ℤ)) {located : List Moved}
    (sorted : located.Pairwise fun a b => a.order ≤ b.order)
    (hlocated : ∀ item ∈ located, item.located) :
  (mergeBody body located).Pairwise (fun a b => ¬ Misplaced a b) ↔
    ∀ item ∈ located, item.footer → PageInOrder item.page body
  := by
  fun_induction mergeBody body located with
  | case1 located =>
    constructor
    · exact fun _ _ _ _ => List.Pairwise.nil
    · intro _
      rw [pairwise_map]
      exact pairwise_of_forall fun _ _ => id
  | case2 child body located ih =>
    rw [pairwise_cons, ih sorted hlocated, and_iff_right]
    · refine forall_congr' fun item => forall_congr' fun _ => forall_congr' fun _ => ?_
      rw [PageInOrder, PageInOrder, pairwise_cons, and_iff_right]
      exact fun _ _ _ _ h => nomatch h
    · rintro (item | ⟨other, page⟩) _ hmisplaced
      · cases hmisplaced.2.2
      · exact hmisplaced
  | case3 child page body located ih =>
    have hsplit := takeWhile_append_dropWhile (p := (·.goesBefore page)) (l := located)
    have hbehind : ∀ item ∈ located.dropWhile (·.goesBefore page), item.goesBefore page = false :=
      fun item hitem => goesBefore_of_mem_dropWhile sorted hitem
    have hbefore : ∀ item ∈ located.takeWhile (·.goesBefore page), item.goesBefore page :=
      fun item hitem => mem_takeWhile_imp hitem
    have hmemBefore : ∀ item ∈ located.takeWhile (·.goesBefore page), item ∈ located :=
      fun item hitem => ( takeWhile_prefix _).subset hitem
    have hmemBehind : ∀ item ∈ located.dropWhile (·.goesBefore page), item ∈ located :=
      fun item hitem => (dropWhile_suffix _).subset hitem
    have ih := ih (sorted.sublist (dropWhile_suffix _).sublist)
      fun item hitem => hlocated item (hmemBehind item hitem)
    constructor
    · intro h item hitem hfooter
      rw [pairwise_append, pairwise_cons, ih] at h
      obtain ⟨-, ⟨-, hrest⟩, hcross⟩ := h
      rw [← hsplit, mem_append] at hitem
      obtain hitem | hitem := hitem
      · -- A footer that the cursor passes here: no item of its page follows.
        have hnone : ∀ other ∈ body, other.2 ≠ some item.page := by
          intro other hother hpage
          refine hcross (.moved item) (mem_map_of_mem hitem) (.kept other.1 other.2)
            (mem_cons_of_mem _ (mem_mergeBody.mpr (.inl ⟨other, hother, rfl⟩))) ?_
          exact ⟨hlocated item (hmemBefore item hitem), hfooter, hpage⟩
        refine pairwise_cons.mpr ⟨fun other hother hpage => absurd hpage (hnone other hother), ?_⟩
        exact pairwise_of_forall_mem_list fun _ _ other hother hpage =>
          absurd hpage (hnone other hother)
      · refine pairwise_cons.mpr ⟨?_, hrest item hitem hfooter⟩
        rintro other _ _ first ⟨⟩
        exact (goesBefore_eq_false.mp (hbehind item hitem)).1
    · intro h
      rw [pairwise_append, pairwise_cons, ih]
      refine ⟨?_, ⟨?_, ?_⟩, ?_⟩
      · rw [pairwise_map]
        exact pairwise_of_forall fun _ _ => id
      · intro entry hentry hmisplaced
        obtain ⟨other, -, rfl⟩ | ⟨item, hitem, rfl⟩ := mem_mergeBody.mp hentry
        · exact hmisplaced
        · obtain ⟨-, hheader, hpage⟩ := hmisplaced
          exact (goesBefore_eq_false.mp (hbehind item hitem)).2 hheader (Option.some.inj hpage)
      · intro item hitem hfooter
        exact (pairwise_cons.mp (h item (hmemBehind item hitem) hfooter)).2
      · rintro _ hmoved entry hentry hmisplaced
        obtain ⟨item, hitem, rfl⟩ := mem_map.mp hmoved
        have hgoes : item.page < page ∨ item.page = page ∧ item.footer = false := by
          simpa [Moved.goesBefore] using hbefore item hitem
        obtain rfl | hentry := mem_cons.mp hentry
        · obtain ⟨-, hfooter, hpage⟩ := hmisplaced
          have := Option.some.inj hpage
          obtain hlt | ⟨-, hheader⟩ := hgoes
          · omega
          · rw [hfooter] at hheader
            cases hheader
        · obtain ⟨other, hother, rfl⟩ | ⟨_, _, rfl⟩ := mem_mergeBody.mp hentry
          · obtain ⟨-, hfooter, hpage⟩ := hmisplaced
            have hle := (pairwise_cons.mp (h item (hmemBefore item hitem) hfooter)).1 other
              hother hpage page rfl
            obtain hlt | ⟨-, hheader⟩ := hgoes
            · omega
            · rw [hfooter] at hheader
              cases hheader
          · exact hmisplaced

/-! ### The migration -/

theorem filter_three_perm {α : Type} (p q : α → Bool) (l : List α) :
  (l.filter (fun a => !p a && !q a) ++ l.filter p ++ l.filter (fun a => !p a && q a)).Perm l
  := by
  have hunlocated : ∀ r : α → Bool,
      l.filter (fun a => !p a && r a) = (l.filter (!p ·)).filter r := by
    intro r
    rw [filter_filter]
    exact filter_congr fun a _ => Bool.and_comm _ _
  have hsides := filter_append_perm (!q ·) (l.filter (!p ·))
  have hall := filter_append_perm p l
  simp only [Bool.not_not] at hsides
  rw [hunlocated, hunlocated]
  refine .trans ?_ hall
  refine List.Perm.trans ?_ (hsides.append_left _)
  rw [← append_assoc]
  exact perm_append_comm.append_right _

variable (document : TreeDocument)

theorem movedChildren_perm :
  (document.movedChildren.filter (fun item => !item.located && !item.footer) ++
      document.located ++
      document.movedChildren.filter (fun item => !item.located && item.footer)).Perm
    document.movedChildren
  := by
  refine .trans ?_ (filter_three_perm Moved.located Moved.footer document.movedChildren)
  exact ((sortOn_perm Moved.order _).append_left _).append_right _

theorem movedChildren_ref :
  document.movedChildren.map Moved.ref = document.furniture
  := by
  have href : ∀ child position, (document.moved child position).ref = child := by
    intro child position
    rw [TreeDocument.moved]
    split <;> rfl
  rw [TreeDocument.movedChildren, map_map]
  simp only [Function.comp_def, href]
  exact zipIdx_map_fst 0 document.furniture

/-- The entries of the new body, between the items without a page. -/
def TreeDocument.mergedBody (document : TreeDocument) : List BodyEntry :=
  if document.bodyPages.any fun (_, page) => page.isSome then
    mergeBody document.bodyPages document.located
  else (document.located.filter (!·.footer)).map .moved ++
    document.bodyPages.map (fun (child, page) => .kept child page) ++
    (document.located.filter (·.footer)).map .moved

theorem mergedBody_perm :
  document.mergedBody.Perm (document.bodyPages.map (fun (child, page) => .kept child page) ++
    document.located.map .moved)
  := by
  rw [TreeDocument.mergedBody]
  split
  · exact mergeBody_perm _ _
  · have hsides := (filter_append_perm (!·.footer) document.located).map BodyEntry.moved
    simp only [Bool.not_not, map_append] at hsides
    refine .trans ?_ (hsides.append_left _)
    rw [← append_assoc]
    exact perm_append_comm.append_right _

theorem bodyPages_children :
  document.bodyPages.map Prod.fst = document.children
  := by
  rw [TreeDocument.bodyPages, map_map]
  exact map_id _

/-- What the migration of the furniture tree is for. -/
structure Migrated (before : TreeDocument) : Prop where
  /-- The furniture tree is empty. -/
  furniture : (migrateFurnitureTree before).1.furniture = []
  /-- The entries of the new body. -/
  children : (migrateFurnitureTree before).1.children = before.merged.map BodyEntry.ref
  perm : (migrateFurnitureTree before).1.children.Perm (before.children ++ before.furniture)
  /-- The old body children keep their order. -/
  kept : before.merged.filterMap BodyEntry.keptChild = before.children
  /-- Located headers stand before, and located footers behind, every body item of their page. -/
  placed : (∃ entry ∈ before.bodyPages, entry.2.isSome) →
    before.merged.Pairwise fun a b => ¬ Misplaced a b

theorem mergedBody_kept :
  document.mergedBody.filterMap BodyEntry.keptChild = document.children
  := by
  rw [TreeDocument.mergedBody, ← bodyPages_children]
  split
  · exact filterMap_mergeBody _ _
  · rw [filterMap_append, filterMap_append, filterMap_keptChild_moved,
      filterMap_keptChild_moved, nil_append, append_nil, filterMap_map]
    exact congrFun (filterMap_eq_map (f := Prod.fst)) _

theorem merged_eq :
  document.merged =
    (document.movedChildren.filter fun item => !item.located && !item.footer).map .moved ++
      document.mergedBody ++
      (document.movedChildren.filter fun item => !item.located && item.footer).map .moved
  := rfl

/-- The new body has an entry for every old child and for every one of the furniture. -/
theorem merged_perm :
  document.merged.Perm (document.bodyPages.map (fun (child, page) => .kept child page) ++
    document.movedChildren.map .moved)
  := by
  have hmoved := (movedChildren_perm document).map BodyEntry.moved
  rw [map_append, map_append] at hmoved
  rw [merged_eq]
  refine (((mergedBody_perm document).append_left _).append_right _).trans
    (List.Perm.trans ?_ (hmoved.append_left _))
  simp only [← append_assoc]
  exact (perm_append_comm.append_right _).append_right _

theorem children_perm :
  (document.merged.map BodyEntry.ref).Perm (document.children ++ document.furniture)
  := by
  have h := (merged_perm document).map BodyEntry.ref
  rw [map_append, map_map, map_map] at h
  rw [← bodyPages_children, ← movedChildren_ref]
  exact h

theorem merged_kept :
  document.merged.filterMap BodyEntry.keptChild = document.children
  := by
  rw [merged_eq, filterMap_append, filterMap_append, filterMap_keptChild_moved,
    filterMap_keptChild_moved, nil_append, append_nil, mergedBody_kept]

theorem merged_of_isEmpty {document : TreeDocument} (h : document.furniture = []) :
  document.merged.map BodyEntry.ref = document.children
  := by
  have hmoved : document.movedChildren = [] := by
    rw [TreeDocument.movedChildren, h]
    rfl
  have hkept : ∀ entry ∈ document.merged, some entry.ref = entry.keptChild := by
    intro entry hentry
    rw [(merged_perm document).mem_iff, hmoved, map_nil, append_nil] at hentry
    obtain ⟨child, -, rfl⟩ := mem_map.mp hentry
    rfl
  rw [← merged_kept, ← filterMap_congr hkept]
  exact (congrFun (filterMap_eq_map (f := BodyEntry.ref)) _).symm

theorem not_misplaced_of_unlocated {item : Moved} (h : item.located = false) (entry : BodyEntry) :
  ¬ Misplaced (.moved item) entry ∧ ¬ Misplaced entry (.moved item)
  := by
  cases entry with
  | moved other => exact ⟨id, id⟩
  | kept child page =>
    have hnot : ¬ item.located = true := by simp [h]
    exact ⟨fun hmisplaced => hnot hmisplaced.1, fun hmisplaced => hnot hmisplaced.1⟩

/-- The items without a page are in no one's way. -/
theorem merged_placed_iff :
  (document.merged.Pairwise fun a b => ¬ Misplaced a b) ↔
    document.mergedBody.Pairwise fun a b => ¬ Misplaced a b
  := by
  have hleading : ∀ entry ∈ (document.movedChildren.filter
      fun item => !item.located && !item.footer).map BodyEntry.moved, ∀ other,
      ¬ Misplaced entry other := by
    rintro _ hentry other
    obtain ⟨item, hitem, rfl⟩ := mem_map.mp hentry
    have hitem := of_mem_filter hitem
    exact (not_misplaced_of_unlocated (by simp at hitem; exact hitem.1) other).1
  have htrailing : ∀ entry ∈ (document.movedChildren.filter
      fun item => !item.located && item.footer).map BodyEntry.moved, ∀ other,
      ¬ Misplaced other entry := by
    rintro _ hentry other
    obtain ⟨item, hitem, rfl⟩ := mem_map.mp hentry
    have hitem := of_mem_filter hitem
    exact (not_misplaced_of_unlocated (by simp at hitem; exact hitem.1) other).2
  rw [merged_eq, pairwise_append, pairwise_append]
  constructor
  · intro h
    exact h.1.2.1
  · intro h
    refine ⟨⟨?_, h, fun entry hentry other _ => hleading entry hentry other⟩, ?_,
      fun other _ entry hentry => htrailing entry hentry other⟩
    · exact pairwise_of_forall_mem_list fun entry hentry other _ => hleading entry hentry other
    · exact pairwise_of_forall_mem_list fun other _ entry hentry =>
        htrailing entry hentry other

/-- The migration does what it is for exactly when no body item of a footer's page stands behind
one of a later page. -/
theorem migrated_iff (document : TreeDocument) :
  Migrated document ↔
    ((∃ entry ∈ document.bodyPages, entry.2.isSome) →
      ∀ item ∈ document.located, item.footer → PageInOrder item.page document.bodyPages)
  := by
  have hplaced : ((∃ entry ∈ document.bodyPages, entry.2.isSome) →
      document.merged.Pairwise fun a b => ¬ Misplaced a b) ↔
      ((∃ entry ∈ document.bodyPages, entry.2.isSome) →
        ∀ item ∈ document.located, item.footer → PageInOrder item.page document.bodyPages) := by
    refine imp_congr_right fun hany => ?_
    rw [merged_placed_iff, TreeDocument.mergedBody, if_pos (by simpa using hany)]
    apply mergeBody_placed_iff
    · exact pairwise_sortOn _ _
    · intro item hitem
      exact List.of_mem_filter ((sortOn_perm Moved.order _).subset hitem)
  constructor
  · intro h
    exact hplaced.mp h.placed
  · intro h
    have hchildren : (migrateFurnitureTree document).1.children =
        document.merged.map BodyEntry.ref := by
      rw [migrateFurnitureTree]
      split
      case isTrue hempty => exact (merged_of_isEmpty (List.isEmpty_iff.mp hempty)).symm
      case isFalse => rfl
    constructor
    case furniture =>
      rw [migrateFurnitureTree]
      split
      case isTrue hempty => exact List.isEmpty_iff.mp hempty
      case isFalse => rfl
    case children => exact hchildren
    case perm =>
      rw [hchildren]
      exact children_perm document
    case kept => exact merged_kept document
    case placed => exact hplaced.mpr h

/-- A text on a page, in a box. -/
def textOnPage (label : DocItemLabel) (page : ℤ) (top : ℚ) : BaseTextItem :=
  .based .text (some {
    label
    prov := [{ pageNo := page, bbox := some { l := 10, t := top, r := 90, b := top + 10 } }] })

/-- Two collectors' bodies, one behind the other, with the footer of the first page. -/
def twoBodies : TreeDocument :=
  { body := some { children := [⟨"#/texts/0"⟩, ⟨"#/texts/1"⟩, ⟨"#/texts/2"⟩] }
    furniture := [⟨"#/texts/3"⟩]
    texts := [textOnPage .text 1 10, textOnPage .text 2 10, textOnPage .text 1 30,
      textOnPage .pageFooter 1 80] }

/-- The footer of the first page is put before the second page, where the body comes back to the
first. -/
theorem not_migrated_twoBodies :
  ¬ ∀ document : TreeDocument, document.furniture ≠ [] → Migrated document
  := by
  intro h
  have hplaced := (h twoBodies (by decide)).placed
  have hmerged : twoBodies.merged =
      [.kept ⟨"#/texts/0"⟩ (some 1),
        .moved ⟨⟨"#/texts/3"⟩, true, 1, 7, 10, 0⟩,
        .kept ⟨"#/texts/1"⟩ (some 2), .kept ⟨"#/texts/2"⟩ (some 1)] := by
    decide +kernel
  have hpages : ∃ entry ∈ twoBodies.bodyPages, entry.2.isSome := by decide +kernel
  have hpairwise := hplaced hpages
  rw [hmerged] at hpairwise
  have hfooter := (List.pairwise_cons.mp hpairwise.of_cons).1
    (.kept ⟨"#/texts/2"⟩ (some 1)) (by simp)
  exact hfooter ⟨rfl, rfl, rfl⟩

/-! ### The nodes -/

end GRParse.Layout
