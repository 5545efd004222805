import GRParse.Layout.PageOrder

/-!
# The reading order of a body

The children of a body are ordered page by page.  A page on which too few items have a box
keeps its order.  The order is a permutation, and ordering the ordered body again changes
nothing unless a caption changes its float: `bodyOrder_settled_iff`.
-/

namespace GRParse.Layout

open Lists Sorting List

/-! ### Pages -/

section

variable {ι κ : Type}

def kMinimumPlacedShare : ℚ := 1 / 2

/-- `enough_geometry`: enough items of a page have a box. -/
def enoughGeometry (members : List (Chain ι)) : Bool :=
  let items := (members.map fun chain => chain.positions.length).sum
  let placed := members.countP fun chain => chain.placement.isSome
  0 < items && kMinimumPlacedShare * items ≤ placed

def Chain.pageNo (chain : Chain ι) : Option ℤ :=
  chain.placement.map ItemPlacement.page

/-- The pages that chains are on, in order. -/
def placedPages (chains : List (Chain ι)) : List ℤ :=
  sortOn id (chains.filterMap Chain.pageNo).dedup

def membersOn (chains : List (Chain ι)) (page : ℤ) : List (Chain ι) :=
  chains.filter fun chain => chain.pageNo = some page

theorem enoughGeometry_perm {members members' : List (Chain ι)} (h : members.Perm members') :
  enoughGeometry members = enoughGeometry members'
  := by
  rw [enoughGeometry, (h.map _).sum_eq, h.countP_eq, enoughGeometry]

variable {chains : List (Chain ι)}

theorem mem_placedPages {page : ℤ} :
  page ∈ placedPages chains ↔ ∃ chain ∈ chains, chain.pageNo = some page
  := by
  rw [placedPages, (sortOn_perm _ _).mem_iff]
  simp

theorem nodup_placedPages (chains : List (Chain ι)) :
  (placedPages chains).Nodup
  := (sortOn_perm _ _).nodup_iff.mpr (nodup_dedup _)

theorem membersOn_eq_nil {page : ℤ} (h : page ∉ placedPages chains) :
  membersOn chains page = []
  := by
  rw [membersOn, filter_eq_nil_iff]
  intro chain hchain hpage
  exact h (mem_placedPages.mpr ⟨chain, hchain, of_decide_eq_true hpage⟩)

/-- A block of chains of one page. -/
theorem membersOn_flatMap {pages : List ℤ} (hpages : pages.Nodup) {blocks : ℤ → List (Chain ι)}
    (h : ∀ page ∈ pages, ∀ chain ∈ blocks page, chain.pageNo = some page) {page : ℤ}
    (hpage : page ∈ pages) :
  membersOn (pages.flatMap blocks) page = blocks page
  := by
  rw [membersOn, filter_flatMap]
  conv_rhs => rw [← flatMap_pick hpages hpage (blocks page)]
  apply flatMap_congr
  intro other hother
  split
  case isTrue heq =>
    subst heq
    exact filter_eq_self.mpr fun chain hchain => by simpa using h other hother chain hchain
  case isFalse hne =>
    exact filter_eq_nil_iff.mpr fun chain hchain => by simp [h other hother chain hchain, hne]

/-- Chains without a place are on no page. -/
theorem filterMap_pageNo_eq_nil (h : ∀ chain ∈ chains, chain.placement = none) :
  chains.filterMap Chain.pageNo = []
  := by
  rw [filterMap_eq_nil_iff]
  intro chain hchain
  rw [Chain.pageNo, h chain hchain, Option.map_none]

theorem membersOn_of_unplaced (h : ∀ chain ∈ chains, chain.placement = none) (page : ℤ) :
  membersOn chains page = []
  := by
  rw [membersOn, filter_eq_nil_iff]
  intro chain hchain
  simp [Chain.pageNo, h chain hchain]

variable {placement : ι → Option ItemPlacement} {label : ι → DocItemLabel} {items : List ι}

/-- No chain is empty, so chains of different items are different. -/
theorem nodup_buildChains (h : items.Nodup) :
  (buildChains placement label items).Nodup
  := by
  have hitems := (buildChains_perm placement label items).nodup_iff.mpr h
  rw [nodup_flatMap] at hitems
  apply hitems.2.imp_of_mem
  rintro chain other hchain - hdisjoint rfl
  have hlinked := linked_of_mem_buildChains hchain
  have hne : chain.positions ≠ [] := by
    unfold Chain.Linked at hlinked
    split at hlinked
    · exact hlinked.1
    · obtain ⟨item, followers, heq, -⟩ := hlinked
      simp [heq]
  obtain ⟨item, hitem⟩ := exists_mem_of_ne_nil _ hne
  exact hdisjoint hitem hitem

/-- The unplaced items that come before the pages. -/
def leadItems (placement : ι → Option ItemPlacement) (label : ι → DocItemLabel)
    (items : List ι) : List ι :=
  ((buildChains placement label items).filter fun chain => chain.placement.isNone).flatMap
    Chain.positions

theorem placement_of_mem_leadItems {item : ι} (h : item ∈ leadItems placement label items) :
  placement item = none
  := by
  obtain ⟨chain, hchain, hitem⟩ := mem_flatMap.mp h
  obtain ⟨hmem, hnone⟩ := mem_filter.mp hchain
  have hlinked := linked_of_mem_buildChains hmem
  rw [Chain.Linked, Option.isNone_iff_eq_none.mp hnone] at hlinked
  exact hlinked.2 item hitem

/-- The chains of the pages, each page in the order it is given. -/
def pageChains (placement : ι → Option ItemPlacement) (label : ι → DocItemLabel)
    (items : List ι) (order : List (Chain ι) → List (Chain ι)) : List (Chain ι) :=
  (placedPages (buildChains placement label items)).flatMap fun page =>
    order (membersOn (buildChains placement label items) page)

/-- Chains of the pages are the chains of their items, behind those that come first. -/
theorem buildChains_pageChains {order : List (Chain ι) → List (Chain ι)}
    (horder : ∀ page, (order (membersOn (buildChains placement label items) page)).Perm
      (membersOn (buildChains placement label items) page)) :
  buildChains placement label (leadItems placement label items ++
      (pageChains placement label items order).flatMap Chain.positions) =
    leadChains label (leadItems placement label items) ++ pageChains placement label items order
  := by
  apply buildChains_append fun item hitem => placement_of_mem_leadItems hitem
  intro chain hchain
  obtain ⟨page, -, hmem⟩ := mem_flatMap.mp hchain
  obtain ⟨hmem, hpage⟩ := mem_filter.mp ((horder page).mem_iff.mp hmem)
  refine ⟨?_, linked_of_mem_buildChains hmem⟩
  rw [← Option.isSome_map (f := ItemPlacement.page)]
  exact Option.isSome_of_eq_some (of_decide_eq_true hpage)

theorem membersOn_map (f : κ → ι) (chains : List (Chain κ)) (page : ℤ) :
  membersOn (chains.map (Chain.map f)) page = (membersOn chains page).map (Chain.map f)
  := by
  rw [membersOn, filter_map]
  rfl

/-- Chains of the pages in one order are those in another when each page is. -/
theorem pageChains_eq_iff {order order' : List (Chain ι) → List (Chain ι)}
    (horder : ∀ page, (order (membersOn (buildChains placement label items) page)).Perm
      (membersOn (buildChains placement label items) page))
    (horder' : ∀ page, (order' (membersOn (buildChains placement label items) page)).Perm
      (membersOn (buildChains placement label items) page)) :
  (pageChains placement label items order).flatMap Chain.positions =
      (pageChains placement label items order').flatMap Chain.positions ↔
    ∀ page ∈ placedPages (buildChains placement label items),
      order (membersOn (buildChains placement label items) page) =
        order' (membersOn (buildChains placement label items) page)
  := by
  have hblock : ∀ {order : List (Chain ι) → List (Chain ι)},
      (∀ page, (order (membersOn (buildChains placement label items) page)).Perm
        (membersOn (buildChains placement label items) page)) →
      ∀ page ∈ placedPages (buildChains placement label items),
        membersOn (pageChains placement label items order) page =
          order (membersOn (buildChains placement label items) page) := by
    intro order horder page hpage
    apply membersOn_flatMap (nodup_placedPages _) _ hpage
    intro page _ chain hchain
    simpa using (mem_filter.mp ((horder page).mem_iff.mp hchain)).2
  constructor
  · intro h page hpage
    have hbuild := buildChains_pageChains horder
    rw [h, buildChains_pageChains horder'] at hbuild
    rw [← hblock horder page hpage, ← hblock horder' page hpage,
      append_cancel_left hbuild]
  · intro h
    rw [pageChains, flatMap_congr h, pageChains]

variable [DecidableEq ι]

/-- The chains of a page, cut where there is enough to cut by. -/
def pageOrder (members : List (Chain ι)) : List (Chain ι) :=
  if enoughGeometry members then orderPage members else members

/-- The chains in order: those without a place, which have no page, and then the pages. -/
def orderChains (chains : List (Chain ι)) : List (Chain ι) :=
  (chains.filter fun chain => chain.placement.isNone) ++
    (placedPages chains).flatMap fun page => pageOrder (membersOn chains page)

/-- The items in order. -/
def orderItems (placement : ι → Option ItemPlacement) (label : ι → DocItemLabel)
    (items : List ι) : List ι :=
  (orderChains (buildChains placement label items)).flatMap Chain.positions

/-! ### The order is a permutation -/

theorem pageOrder_perm {members : List (Chain ι)} (h : members.Nodup) :
  (pageOrder members).Perm members
  := by
  unfold pageOrder
  split
  · exact orderPage_perm h
  · exact .refl _

/-- A page is in order when its captions keep their floats, if it is cut at all. -/
theorem pageOrder_pageOrder_iff {members : List (Chain ι)} (h : members.Nodup) :
  pageOrder (pageOrder members) = pageOrder members ↔
    (enoughGeometry members → TiesKept members)
  := by
  by_cases henough : enoughGeometry members
  · have hagain : enoughGeometry (orderPage members) := by
      rwa [enoughGeometry_perm (orderPage_perm h)]
    simp [pageOrder, henough, hagain, orderPage_orderPage_iff h]
  · simp [pageOrder, henough]

theorem orderChains_perm (h : chains.Nodup) :
  (orderChains chains).Perm chains
  := by
  have hpages : ((placedPages chains).flatMap fun page => pageOrder (membersOn chains page)).Perm
      (chains.filter fun chain => chain.placement.isSome) := by
    have hmembers := List.Perm.flatMap_left (placedPages chains) fun page _ =>
      pageOrder_perm (h.filter fun chain => chain.pageNo = some page)
    refine hmembers.trans ((flatMap_filter_perm _ (nodup_placedPages chains) chains).trans ?_)
    apply List.Perm.of_eq
    apply filter_congr
    intro chain hchain
    cases hpage : chain.pageNo with
    | none =>
      rw [Chain.pageNo, Option.map_eq_none_iff] at hpage
      simp [hpage]
    | some page =>
      have hplaced : chain.placement.isSome := by
        rw [← Option.isSome_map (f := ItemPlacement.page)]
        exact Option.isSome_of_eq_some hpage
      simpa [hplaced] using mem_placedPages.mpr ⟨chain, hchain, hpage⟩
  have hsplit := filter_append_perm (fun chain => chain.placement.isNone) chains
  refine (hpages.append_left _).trans ?_
  simpa using hsplit

theorem pageNo_of_mem_pageOrder (hchains : chains.Nodup) {page : ℤ} {chain : Chain ι}
    (h : chain ∈ pageOrder (membersOn chains page)) :
  chain.pageNo = some page
  := by
  have hmem := (pageOrder_perm (hchains.filter _)).mem_iff.mp h
  simpa using (mem_filter.mp hmem).2

section

variable {placement : ι → Option ItemPlacement} {label : ι → DocItemLabel} {items : List ι}

/-- The order of the items is a permutation of them. -/
theorem orderItems_perm (h : items.Nodup) :
  (orderItems placement label items).Perm items
  := by
  have hnodup : (buildChains placement label items).Nodup := nodup_buildChains h
  exact ((orderChains_perm hnodup).flatMap_right _).trans (buildChains_perm placement label items)

/-! ### Ordering the items a second time -/

theorem orderItems_eq :
  orderItems placement label items =
    leadItems placement label items ++
      (pageChains placement label items pageOrder).flatMap Chain.positions
  := flatMap_append

/-- Reading the ordered items again reads each page again. -/
theorem orderItems_orderItems (h : items.Nodup) :
  orderItems placement label (orderItems placement label items) =
    leadItems placement label items ++
      (pageChains placement label items fun members =>
        pageOrder (pageOrder members)).flatMap Chain.positions
  := by
  have hchains : (buildChains placement label items).Nodup := nodup_buildChains h
  have hpage : ∀ page, (pageOrder (membersOn (buildChains placement label items) page)).Perm
      (membersOn (buildChains placement label items) page) :=
    fun page => pageOrder_perm (hchains.filter _)
  have hbuild := buildChains_pageChains hpage
  let lead := leadChains label (leadItems placement label items)
  have hlead : ∀ chain ∈ lead, chain.placement = none := fun _ => placement_leadChains
  have hplaced : ∀ chain ∈ pageChains placement label items pageOrder,
      chain.placement.isSome := by
    intro chain hchain
    obtain ⟨page, -, hmem⟩ := mem_flatMap.mp hchain
    rw [← Option.isSome_map (f := ItemPlacement.page)]
    exact Option.isSome_of_eq_some (pageNo_of_mem_pageOrder hchains hmem)
  have hunplaced : (lead ++ pageChains placement label items pageOrder).filter
      (fun chain => chain.placement.isNone) = lead := by
    rw [filter_append, filter_eq_self.mpr, filter_eq_nil_iff.mpr, append_nil]
    · exact fun chain hchain => by simpa [Option.isSome_iff_ne_none] using hplaced chain hchain
    · exact fun chain hchain => by simp [hlead chain hchain]
  have hpages : placedPages (lead ++ pageChains placement label items pageOrder) =
      placedPages (buildChains placement label items) := by
    have hperm := (orderChains_perm hchains).filterMap Chain.pageNo
    rw [orderChains, filterMap_append, filterMap_pageNo_eq_nil fun _ hchain =>
      Option.isNone_iff_eq_none.mp (mem_filter.mp hchain).2, nil_append] at hperm
    rw [placedPages, filterMap_append, filterMap_pageNo_eq_nil hlead, nil_append]
    exact sortOn_eq_of_perm hperm.dedup
  have hmembers : ∀ page ∈ placedPages (buildChains placement label items),
      membersOn (lead ++ pageChains placement label items pageOrder) page =
        pageOrder (membersOn (buildChains placement label items) page) := by
    intro page hpage
    rw [membersOn, filter_append]
    change membersOn lead page ++ membersOn _ page = _
    rw [membersOn_of_unplaced hlead, nil_append]
    exact membersOn_flatMap (nodup_placedPages _)
      (fun _ _ _ hchain => pageNo_of_mem_pageOrder hchains hchain) hpage
  have hitems : orderItems placement label items = leadItems placement label items ++
      (pageChains placement label items pageOrder).flatMap Chain.positions := orderItems_eq
  rw [hitems, orderItems, hbuild, orderChains]
  change (filter _ (lead ++ _) ++ (placedPages (lead ++ _)).flatMap fun page =>
    pageOrder (membersOn (lead ++ _) page)).flatMap _ = _
  rw [hunplaced, hpages, flatMap_append, positions_leadChains]
  congr 2
  apply flatMap_congr
  intro page hpage
  rw [hmembers page hpage]

/-- Ordering the items a second time changes nothing exactly when captions keep their floats on
the pages that are cut. -/
theorem orderItems_orderItems_iff (h : items.Nodup) :
  orderItems placement label (orderItems placement label items) =
      orderItems placement label items ↔
    ∀ page, enoughGeometry (membersOn (buildChains placement label items) page) →
      TiesKept (membersOn (buildChains placement label items) page)
  := by
  have hmembers : ∀ page, (membersOn (buildChains placement label items) page).Nodup := fun page =>
    (nodup_buildChains h).filter _
  have horder := fun page => pageOrder_perm (hmembers page)
  rw [orderItems_orderItems h, orderItems_eq, append_cancel_left_eq, pageChains_eq_iff
    (fun page => (pageOrder_perm ((horder page).nodup_iff.mpr (hmembers page))).trans (horder page))
    horder]
  constructor
  · intro heq page henough
    by_cases hpage : page ∈ placedPages (buildChains placement label items)
    · exact (pageOrder_pageOrder_iff (hmembers page)).mp (heq page hpage) henough
    · rw [membersOn_eq_nil hpage] at henough
      simp [enoughGeometry] at henough
  · intro hties page _
    exact (pageOrder_pageOrder_iff (hmembers page)).mpr (hties page)

end

theorem pageOrder_map [DecidableEq κ] {f : κ → ι} (hf : Function.Injective f)
    (members : List (Chain κ)) :
  pageOrder (members.map (Chain.map f)) = (pageOrder members).map (Chain.map f)
  := by
  have henough : enoughGeometry (members.map (Chain.map f)) = enoughGeometry members := by
    simp only [enoughGeometry, map_map, Function.comp_def, Chain.map, length_map,
      countP_map]
  rw [pageOrder, henough, pageOrder]
  split
  · exact orderPage_map hf members
  · rfl

theorem orderChains_map [DecidableEq κ] {f : κ → ι} (hf : Function.Injective f)
    (chains : List (Chain κ)) :
  orderChains (chains.map (Chain.map f)) = (orderChains chains).map (Chain.map f)
  := by
  have hpages : placedPages (chains.map (Chain.map f)) = placedPages chains := by
    rw [placedPages, filterMap_map]
    rfl
  rw [orderChains, hpages, filter_map, orderChains, map_append, map_flatMap]
  simp only [membersOn_map, pageOrder_map hf]
  rfl

/-- The order of renamed items is the renamed order. -/
theorem orderItems_map [DecidableEq κ] {f : κ → ι} (hf : Function.Injective f)
    (placement : ι → Option ItemPlacement) (label : ι → DocItemLabel) (items : List κ) :
  orderItems placement label (items.map f) =
    (orderItems (placement ∘ f) (label ∘ f) items).map f
  := by
  rw [orderItems, buildChains_map, orderChains_map hf, orderItems, flatMap_map,
    map_flatMap]
  rfl

end

/-! ### The body -/

/-- The reference that a position of the body holds. -/
def Document.childRef (document : Document) (position : ℕ) : String :=
  (document.children[position]?.map RefItem.ref).getD ""

def Document.childPlacement (document : Document) (position : ℕ) : Option ItemPlacement :=
  document.itemPlacement (documentPageHeights document) (document.childRef position)

def Document.childLabel (document : Document) (position : ℕ) : DocItemLabel :=
  document.itemLabel (document.childRef position)

/-- The chains of the body. -/
def Document.bodyChains (document : Document) : List (Chain ℕ) :=
  buildChains document.childPlacement document.childLabel (.range document.children.length)

/-- `body_reading_order`. -/
def bodyReadingOrder (document : Document) : List ℕ :=
  orderItems document.childPlacement document.childLabel (.range document.children.length)

structure BodyOrderOptions where
  geometryCollectors : List String := ["pdf"]

structure BodyOrderReport where
  pagesReordered : ℕ := 0
  itemsMoved : ℕ := 0
  groupsSplit : ℕ := 0

/-- The positions that an order moves, with where it moves them. -/
def movedItems (order : List ℕ) : List (ℕ × ℕ) :=
  order.zipIdx.filter fun (position, index) => position ≠ index

/-- The document with the children of its body in the given order. -/
def Document.reorder (document : Document) (order : List ℕ) : Document :=
  { document with body := some { document.body.getD {} with
      children := order.filterMap (document.children[·]?) } }

/-- The part of `order_body_by_geometry` behind the splits. -/
def orderBody (document : Document) (groupsSplit : ℕ) : Document × BodyOrderReport :=
  let order := bodyReadingOrder document
  if order.length ≠ document.children.length then (document, { groupsSplit })
  else
    let moved := movedItems order
    let pages := moved.filterMap fun (position, _) =>
      (document.childPlacement position).map ItemPlacement.page
    let report := {
      pagesReordered := pages.dedup.length
      itemsMoved := moved.length
      groupsSplit }
    if 0 < moved.length then (document.reorder order, report) else (document, report)

/-- `order_body_by_geometry`. -/
def orderBodyByGeometry (document : Document) (options : BodyOrderOptions) :
    Document × BodyOrderReport :=
  if producedOnlyBy document.toArenas options.geometryCollectors then
    let (document, groupsSplit) :=
      splitGroupsAroundFloats (documentPageHeights document) document
    orderBody document groupsSplit
  else (document, {})

/-- `body_reading_order` lists every position of the body once. -/
theorem bodyReadingOrder_perm (document : Document) :
  (bodyReadingOrder document).Perm (.range document.children.length)
  := orderItems_perm nodup_range

/-- An order moves nothing exactly when it lists the positions in their order. -/
theorem movedItems_eq_nil_iff (order : List ℕ) :
  movedItems order = [] ↔ order = .range order.length
  := by
  rw [movedItems, List.filter_eq_nil_iff]
  constructor
  · intro h
    apply List.ext_getElem (by simp)
    intro index hindex _
    have hmem : (order[index], index) ∈ order.zipIdx := by
      simp [List.mem_zipIdx_iff_getElem?, hindex]
    simpa using h _ hmem
  · rintro heq ⟨position, index⟩ hmem
    have hmem : order[index]? = some position := List.mem_zipIdx_iff_getElem?.mp hmem
    rw [heq, List.getElem?_range (by
      simpa using (List.getElem?_eq_some_iff.mp hmem).1)] at hmem
    simp [Option.some.inj hmem]

/-- Behind the splits the children of the body are those before, in reading order. -/
theorem orderBody_spec (document : Document) (groupsSplit : ℕ) :
  (orderBody document groupsSplit).1.toArenas = document.toArenas ∧
    (orderBody document groupsSplit).1.pages = document.pages ∧
    (orderBody document groupsSplit).1.children =
      (bodyReadingOrder document).filterMap (document.children[·]?) ∧
    ((orderBody document groupsSplit).2.itemsMoved = 0 ↔
      bodyReadingOrder document = .range document.children.length) ∧
    (orderBody document groupsSplit).2.groupsSplit = groupsSplit
  := by
  have hlength : (bodyReadingOrder document).length = document.children.length := by
    simpa using (bodyReadingOrder_perm document).length_eq
  have hmoved := movedItems_eq_nil_iff (bodyReadingOrder document)
  rw [hlength] at hmoved
  simp only [orderBody, hlength, ne_eq, not_true_eq_false, if_false]
  split
  case isTrue hlt =>
    refine ⟨rfl, rfl, rfl, ?_, rfl⟩
    rw [length_eq_zero_iff, hmoved]
  case isFalse hnone =>
    have heq := hmoved.mp (length_eq_zero_iff.mp (Nat.eq_zero_of_not_pos hnone))
    refine ⟨rfl, rfl, ?_, ?_, rfl⟩
    · rw [heq]
      exact (filterMap_positions_range document.children).symm
    · rw [length_eq_zero_iff, hmoved]

/-- Each caption on a page that is cut labels one float whether the floats stand in the order
of the body or of the cut. -/
def CaptionsSettled (document : Document) : Prop :=
  ∀ page, enoughGeometry (membersOn document.bodyChains page) →
    TiesKept (membersOn document.bodyChains page)

/-- The order of a body that has been put in order. -/
theorem bodyReadingOrder_reordered {document document' : Document}
    (harenas : document'.toArenas = document.toArenas) (hpages : document'.pages = document.pages)
    (hchildren : document'.children =
      (bodyReadingOrder document).filterMap (document.children[·]?)) :
  bodyReadingOrder document' = .range document'.children.length ↔ CaptionsSettled document
  := by
  let order := bodyReadingOrder document
  -- Where the new body holds what the old one held elsewhere.
  let f : ℕ → ℕ := fun index => order.getD index index
  have hperm : order.Perm (.range document.children.length) := bodyReadingOrder_perm document
  have hlength : order.length = document.children.length := by simpa using hperm.length_eq
  have hlt : ∀ position ∈ order, position < document.children.length := fun position hposition =>
    mem_range.mp (hperm.mem_iff.mp hposition)
  have hlength' : document'.children.length = document.children.length := by
    rw [hchildren, ← hlength]
    exact length_filterMap_positions hlt
  have hf : Function.Injective f := getD_injective (hperm.nodup_iff.mpr nodup_range)
    fun position hposition => hlength ▸ hlt position hposition
  have hrange : (range document.children.length).map f = order := by
    rw [← hlength]
    exact map_range_getD order
  have hheights : documentPageHeights document' = documentPageHeights document := by
    funext page
    simp only [documentPageHeights, harenas, hpages]
  have hrefs : ∀ index, document'.childRef index = document.childRef (f index) := by
    intro index
    have hindex : document.children[f index]? = order[index]?.bind (document.children[·]?) := by
      by_cases hindex : index < order.length
      · simp [f, hindex]
      · have hnone : order[index]? = none := getElem?_eq_none (not_lt.mp hindex)
        have hsame : f index = index := by simp [f, hnone]
        rw [hnone, hsame, getElem?_eq_none (by omega), Option.bind_none]
    rw [Document.childRef, hchildren, getElem?_filterMap_positions hlt, Document.childRef, hindex]
  have hplacement : document'.childPlacement = document.childPlacement ∘ f := by
    funext index
    simp only [Document.childPlacement, hheights, hrefs, harenas, Function.comp_apply]
  have hlabel : document'.childLabel = document.childLabel ∘ f := by
    funext index
    simp only [Document.childLabel, hrefs, harenas, Function.comp_apply]
  have hagain := orderItems_map hf document.childPlacement document.childLabel
    (.range document.children.length)
  rw [hrange, ← hplacement, ← hlabel] at hagain
  rw [← (map_injective_iff.mpr hf).eq_iff, bodyReadingOrder, hlength', ← hagain, hrange]
  exact orderItems_orderItems_iff nodup_range

/-- Ordering a body by geometry gives a permutation, and ordering it a second time moves no
item and splits no group, exactly when the captions of the document with its groups split are
settled. -/
theorem bodyOrder_settled_iff (document : Document) (options : BodyOrderOptions)
    (h : producedOnlyBy document.toArenas options.geometryCollectors) :
  ((bodyReadingOrder document).Perm (.range document.children.length) ∧
      (orderBodyByGeometry (orderBodyByGeometry document options).1 options).2.itemsMoved = 0 ∧
      (orderBodyByGeometry (orderBodyByGeometry document options).1 options).2.groupsSplit = 0) ↔
    CaptionsSettled (splitGroupsAroundFloats (documentPageHeights document) document).1
  := by
  let heights := documentPageHeights document
  let halves := (splitGroupsAroundFloats heights document).1
  obtain ⟨harenas, hpages, hchildren, -, -⟩ :=
    orderBody_spec halves (splitGroupsAroundFloats heights document).2
  let ordered := (orderBody halves (splitGroupsAroundFloats heights document).2).1
  have hfirst : (orderBodyByGeometry document options).1 = ordered := by
    rw [orderBodyByGeometry, if_pos h]
  have hproduced : producedOnlyBy ordered.toArenas options.geometryCollectors := by
    rw [harenas, producedOnlyBy, collectors_splitGroupsAroundFloats]
    exact h
  have hheights : documentPageHeights ordered = heights := by
    have hsame : documentPageHeights ordered = documentPageHeights halves := by
      funext page
      simp only [documentPageHeights]
      rw [harenas, hpages]
    rw [hsame, documentPageHeights_splitGroupsAroundFloats]
  have hperm : ordered.children.Perm halves.children := by
    rw [hchildren]
    have hperm := (bodyReadingOrder_perm halves).filterMap (halves.children[·]?)
    rwa [filterMap_positions_range] at hperm
  have hsplit : splitGroupsAroundFloats (documentPageHeights ordered) ordered = (ordered, 0) := by
    rw [hheights]
    exact splitGroupsAroundFloats_of_none _ (findSplit_eq_none_of_perm harenas hperm
      (findSplit_splitGroupsAroundFloats heights document))
  obtain ⟨-, -, -, hmoved, hgroups⟩ := orderBody_spec ordered 0
  have hsecond : orderBodyByGeometry ordered options = orderBody ordered 0 := by
    rw [orderBodyByGeometry, if_pos hproduced, hsplit]
  rw [hfirst, hsecond, hmoved, hgroups,
    @bodyReadingOrder_reordered halves _ harenas hpages hchildren]
  simp [bodyReadingOrder_perm, halves, heights]

/-! ### A caption between two floats -/

/-- A box on the first page, from one height to another. -/
def boxBetween (top bottom : ℚ) : List ProvenanceItem :=
  [{ pageNo := 1, bbox := some { t := top, r := 10, b := bottom } }]

/-- A caption as far below one picture as it is above another, which the body lists first. -/
def captionBetween : Document where
  texts := [.based .text (some {
    label := .caption
    prov := boxBetween 12 14
    source := [{ collector := some "pdf" }] })]
  pictures := [{ prov := boxBetween 16 26 }, { prov := boxBetween 0 10 }]
  body := some { children := [⟨"#/pictures/0"⟩, ⟨"#/pictures/1"⟩, ⟨"#/texts/0"⟩] }

theorem bodyOrder_settled_captionBetween :
  ((bodyReadingOrder captionBetween).Perm (.range captionBetween.children.length) ∧
      (orderBodyByGeometry (orderBodyByGeometry captionBetween {}).1 {}).2.itemsMoved = 0 ∧
      (orderBodyByGeometry (orderBodyByGeometry captionBetween {}).1 {}).2.groupsSplit = 0) ↔
    CaptionsSettled
      (splitGroupsAroundFloats (documentPageHeights captionBetween) captionBetween).1
  := bodyOrder_settled_iff captionBetween {} (by decide +kernel)

/-- The first run puts the caption behind the lower picture and the upper picture first; the
second run puts the caption behind the upper one. -/
theorem not_settled_captionBetween :
  ¬ ∀ (document : Document) (options : BodyOrderOptions),
    producedOnlyBy document.toArenas options.geometryCollectors →
    (bodyReadingOrder document).Perm (.range document.children.length) ∧
      (orderBodyByGeometry (orderBodyByGeometry document options).1 options).2.itemsMoved = 0 ∧
      (orderBodyByGeometry (orderBodyByGeometry document options).1 options).2.groupsSplit = 0
  := by
  intro h
  have hmoved :
      (orderBodyByGeometry (orderBodyByGeometry captionBetween {}).1 {}).2.itemsMoved = 2 := by
    decide +kernel
  have hsettled := (h captionBetween {} (by decide +kernel)).2.1
  rw [hmoved] at hsettled
  exact absurd hsettled (by decide)

end GRParse.Layout
