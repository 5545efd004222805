import GRParse.Export.SplitPages

/-!
# Rows of pages

The split pages are the elements of the plain export, each in the row of one page.  They are on the
right pages exactly if no element is made on account of a group that is moved on, and if those made
before any page is named join the page that is named first.
-/

namespace GRParse.Export

open HtmlRenderer List

/-! ### Rows -/

/-- The elements in rows: each in the row of its page, in the order of the elements. -/
structure Sorted (elements : List Text) (pages : List ℤ) (rows : List (ℤ × List Text)) : Prop where
  length : pages.length = elements.length
  nodup : (rows.map Prod.fst).Nodup
  mem : ∀ page, page ∈ rows.map Prod.fst ↔ page ∈ pages
  row : ∀ row ∈ rows,
    row.2 = ((elements.zip pages).filter fun entry => entry.2 = row.1).map Prod.fst
  perm : (rows.flatMap Prod.snd).Perm elements

/-- Entries that are put in rows by their keys are all there. -/
theorem perm_flatMap_filter {α κ : Type} [DecidableEq κ] (key : α → κ) {keys : List κ}
    (entries : List α) (hnodup : keys.Nodup) (hmem : ∀ entry ∈ entries, key entry ∈ keys) :
  (keys.flatMap fun k => entries.filter fun entry => key entry = k).Perm entries
  := by
  induction keys generalizing entries with
  | nil =>
    cases entries with
    | nil => exact .nil
    | cons entry entries => exact absurd (hmem entry mem_cons_self) not_mem_nil
  | cons k keys ih =>
    obtain ⟨hnot, hkeys⟩ := nodup_cons.mp hnodup
    have hrest : (keys.flatMap fun k' => entries.filter fun entry => key entry = k') =
        keys.flatMap fun k' =>
          (entries.filter fun entry => ¬ key entry = k).filter fun entry => key entry = k' := by
      apply flatMap_congr
      intro k' hk'
      rw [filter_filter]
      apply filter_congr
      intro entry _
      by_cases hkey : key entry = k'
      · have hne : ¬ k' = k := by
          rintro rfl
          exact hnot hk'
        simp [hkey, hne]
      · simp [hkey]
    have hothers := ih (entries.filter fun entry => ¬ key entry = k) hkeys (by
      intro entry hentry
      obtain ⟨hentry, hne⟩ := mem_filter.mp hentry
      rw [decide_eq_true_eq] at hne
      exact (mem_cons.mp (hmem entry hentry)).resolve_left hne)
    rw [flatMap_cons, hrest]
    have hsplit := filter_append_perm (fun entry => decide (key entry = k)) entries
    simp only [← decide_not] at hsplit
    exact (hothers.append_left _).trans hsplit

theorem pageOrder_spec (pages : List ℤ) :
  (pageOrder pages).Nodup ∧ ∀ page, page ∈ pageOrder pages ↔ page ∈ pages
  := by
  induction pages using reverseRecOn with
  | nil => exact ⟨.nil, fun _ => Iff.rfl⟩
  | append_singleton pages page ih =>
    obtain ⟨hnodup, hmem⟩ := ih
    rw [pageOrder, foldl_append, ← pageOrder, foldl_cons, foldl_nil]
    split
    · rename_i hold
      refine ⟨hnodup, fun other => ?_⟩
      rw [hmem, mem_append, mem_singleton]
      constructor
      · exact Or.inl
      · rintro (hother | rfl)
        · exact hother
        · exact (hmem _).mp hold
    · rename_i hnew
      refine ⟨?_, fun other => ?_⟩
      · rw [← concat_eq_append]
        exact hnodup.concat hnew
      · rw [mem_append, mem_append, hmem]

/-- The rows of the split pages hold the elements. -/
theorem sorted_pageRows (document : Document) {renderer : HtmlRenderer}
    (h : renderer.elementPages.length = renderer.elements.length) :
  Sorted renderer.elements (settledPages document renderer.elementPages)
    (pageRows document renderer)
  := by
  have hlength : (settledPages document renderer.elementPages).length = renderer.elements.length := by
    rw [settledPages, length_map, h]
  obtain ⟨hnodup, hmem⟩ := pageOrder_spec (settledPages document renderer.elementPages)
  have hkeys : (pageRows document renderer).map Prod.fst =
      pageOrder (settledPages document renderer.elementPages) := by
    rw [pageRows, map_map]
    exact map_id _
  constructor
  case length => exact hlength
  case nodup => rwa [hkeys]
  case mem => rwa [hkeys]
  case row =>
    intro row hrow
    obtain ⟨page, -, rfl⟩ := mem_map.mp hrow
    rfl
  case perm =>
    have hperm := perm_flatMap_filter Prod.snd
      (renderer.elements.zip (settledPages document renderer.elementPages)) hnodup (by
        intro entry hentry
        exact (hmem _).mpr (of_mem_zip hentry).2)
    have hmap := hperm.map Prod.fst
    rw [map_flatMap, map_fst_zip hlength.ge] at hmap
    rw [pageRows, flatMap_map]
    exact hmap

/-! ### The right pages -/

/-- The elements stand on their pages: on the page of their own item, where it names one; on the page
seen last otherwise; or where none has been seen, on the first that is named. -/
structure Placed (document : Document) (trace : List Step) (pages : List ℤ) : Prop where
  own : ∀ before step text after, trace = before ++ step :: .element text :: after →
    ∀ page, ownPage document step = some page → pages[(made before).length]? = some page
  seen : ∀ before text after, trace = before ++ .element text :: after →
    ∀ page, lastSeen document before = some page → pages[(made before).length]? = some page
  first : ∀ before text after, trace = before ++ .element text :: after →
    lastSeen document before = none →
    ∀ page, firstNamed document trace = some page → pages[(made before).length]? = some page

/-- The two exports of a document, and the pages of the second. -/
def SplitsRight (document : Document) : Prop :=
  ∃ renderer, walk document = some renderer ∧
    renderHtml document = some (htmlText document renderer.elements) ∧
    renderSplitPage document = some (splitPageText document (pageRows document renderer)) ∧
    Sorted renderer.elements (settledPages document renderer.elementPages)
      (pageRows document renderer) ∧
    Placed document renderer.trace (settledPages document renderer.elementPages)

/-- The pages that were seen last before the elements, without those before which there was none. -/
def shownPages (document : Document) (trace : List Step) : List ℤ :=
  (trace.foldl
    (fun (seen, shown) step =>
      ((ownPage document step).or seen,
        shown ++ (madeElement step).toList.flatMap fun _ => seen.toList))
    ((none : Option ℤ), [])).2

/-- If an element is made before any page is named, the first page named is that of the first element
made after it; or the lone page, when there is no such element. -/
def FirstShown (document : Document) (trace : List Step) : Prop :=
  (∃ before text after, trace = before ++ .element text :: after ∧ lastSeen document before = none) →
    ∀ page, firstNamed document trace = some page →
      (shownPages document trace).head?.getD (lonePage document) = page

variable {document : Document}

theorem shownPages_concat (trace : List Step) (step : Step) :
  shownPages document (trace ++ [step]) =
    shownPages document trace ++
      (madeElement step).toList.flatMap fun _ => (lastSeen document trace).toList
  := by
  have hseen : (trace.foldl
      (fun (seen, shown) step =>
        ((ownPage document step).or seen,
          shown ++ (madeElement step).toList.flatMap fun _ => seen.toList))
      ((none : Option ℤ), ([] : List ℤ))).1 = lastSeen document trace := by
    induction trace using reverseRecOn with
    | nil => rfl
    | append_singleton trace step ih =>
      rw [lastSeen_concat, ← ih, foldl_append]
      rfl
  rw [shownPages, foldl_append, ← hseen]
  rfl

theorem CursorSees.of_concat {trace : List Step} {step : Step}
    (h : CursorSees document (trace ++ [step])) :
  CursorSees document trace
  := by
  intro before text after htrace
  apply h before text (after ++ [step])
  rw [htrace]
  simp

/-- The first page among those of the elements is the first that an element shows. -/
theorem find_elementCursors {trace : List Step} (h : CursorSees document trace) :
  (elementCursors document trace).find? (fun page => decide (0 < page)) =
    (shownPages document trace).head?
  := by
  induction trace using reverseRecOn with
  | nil => rfl
  | append_singleton trace step ih =>
    rw [elementCursors_concat, shownPages_concat, find?_append, head?_append,
      ih h.of_concat]
    congr 1
    cases step with
    | item prov => rfl
    | group group => rfl
    | element text =>
      obtain ⟨hnonneg, hzero⟩ := cursor_eq_zero_iff trace
      simp only [madeElement, Option.toList_some, map_cons, map_nil, flatMap_cons,
        flatMap_nil, append_nil]
      cases hseen : lastSeen document trace with
      | none => simp [hzero.mpr hseen]
      | some page =>
        have hcursor := h trace text [] rfl page hseen
        have hpos : 0 < page := by
          rw [← hcursor]
          apply lt_of_le_of_ne hnonneg
          intro heq
          rw [hzero.mp heq.symm] at hseen
          cases hseen
        simp [hcursor, hpos]

/-- The page of an element, once those without one have joined the first. -/
theorem getElem_settledPages (before : List Step) (text : Text) (after : List Step) :
  (settledPages document (elementCursors document (before ++ .element text :: after)))[
      (made before).length]? =
    some (if cursor document before = 0 then
      firstPage document (elementCursors document (before ++ .element text :: after))
      else cursor document before)
  := by
  rw [settledPages, getElem?_map, getElem_elementCursors]
  rfl

/-- The elements stand on their pages exactly if the groups open right, and the first page is shown. -/
theorem placed_iff (trace : List Step) :
  Placed document trace (settledPages document (elementCursors document trace)) ↔
    OpensRight document trace ∧ FirstShown document trace
  := by
  rw [← cursorSees_iff]
  constructor
  · intro h
    have hsees : CursorSees document trace := by
      intro before text after htrace page hseen
      have hpage := h.seen before text after htrace page hseen
      have hne : cursor document before ≠ 0 := by
        intro hzero
        rw [(cursor_eq_zero_iff before).2.mp hzero] at hseen
        cases hseen
      rw [htrace, getElem_settledPages, if_neg hne] at hpage
      exact Option.some.inj hpage
    refine ⟨hsees, ?_⟩
    rintro ⟨before, text, after, htrace, hseen⟩ page hnamed
    have hpage := h.first before text after htrace hseen page hnamed
    rw [htrace, getElem_settledPages, if_pos ((cursor_eq_zero_iff before).2.mpr hseen), ← htrace,
      firstPage, find_elementCursors hsees] at hpage
    exact Option.some.inj hpage
  · rintro ⟨hsees, hfirst⟩
    have hplaced : ∀ before text after, trace = before ++ .element text :: after →
        ∀ page, lastSeen document before = some page →
        (settledPages document (elementCursors document trace))[(made before).length]? =
          some page := by
      intro before text after htrace page hseen
      have hne : cursor document before ≠ 0 := by
        intro hzero
        rw [(cursor_eq_zero_iff before).2.mp hzero] at hseen
        cases hseen
      have hcursor := hsees before text after htrace page hseen
      rw [htrace, getElem_settledPages, if_neg hne, hcursor]
    constructor
    case own =>
      intro before step text after htrace page hown
      have hsilent : madeElement step = none := by
        cases step with
        | item prov => rfl
        | group group => rfl
        | element text => cases hown
      have hlast : lastSeen document (before ++ [step]) = some page := by
        rw [lastSeen_concat, hown, Option.some_or]
      rw [append_cons] at htrace
      have hpage := hplaced (before ++ [step]) text after htrace page hlast
      rw [made_concat, hsilent, Option.toList_none, append_nil] at hpage
      exact hpage
    case seen => exact hplaced
    case first =>
      intro before text after htrace hseen page hnamed
      have hpage := hfirst ⟨before, text, after, htrace, hseen⟩ page hnamed
      rw [htrace, getElem_settledPages, if_pos ((cursor_eq_zero_iff before).2.mpr hseen), ← htrace,
        firstPage, find_elementCursors hsees, hpage]

/-- What the walk comes to is such that all groups open right, and the first page is shown. -/
def PagesLead (document : Document) : Prop :=
  ∀ renderer, walk document = some renderer →
    OpensRight document renderer.trace ∧ FirstShown document renderer.trace

/-- The split pages of an acyclic document are right exactly if its pages lead. -/
theorem renderSplitPage_right_iff (document : Document) (hacyclic : document.Acyclic) :
  SplitsRight document ↔ PagesLead document
  := by
  obtain ⟨renderer, hwalk⟩ := exists_walk hacyclic
  have htraced := traced_walk hwalk
  have hlength : renderer.elementPages.length = renderer.elements.length := by
    rw [htraced.pages, htraced.elements, length_elementCursors]
  constructor
  · rintro ⟨renderer', hwalk', -, -, -, hplaced⟩ renderer'' hwalk''
    obtain rfl := Option.some.inj (hwalk'.symm.trans hwalk'')
    rw [(traced_walk hwalk').pages] at hplaced
    exact (placed_iff _).mp hplaced
  · intro h
    refine ⟨renderer, hwalk, ?_, ?_, sorted_pageRows document hlength, ?_⟩
    · rw [renderHtml, hwalk]
      rfl
    · rw [renderSplitPage, hwalk]
      rfl
    · rw [htraced.pages]
      exact (placed_iff _).mpr (h renderer hwalk)

/-- A paragraph on the first page, and a list that opens there with a list of its own and goes on on
the second page. -/
def opensWithList : Document where
  body := { children := ["#/texts/0", "#/groups/0"] }
  texts := [.text { text := bytes "a", prov := [⟨1⟩] }, .listItem { text := bytes "b", prov := [⟨1⟩] } false,
    .listItem { text := bytes "c", prov := [⟨2⟩] } false]
  groups := [{ label := .list, children := ["#/groups/1", "#/texts/2"] },
    { label := .list, children := ["#/texts/1"] }]

/-- A group comes before those it leads to. -/
def groupRank (ref : String) : ℕ :=
  match parseRef ref with
  | .group index => 2 - index
  | _ => 0

theorem acyclic_opensWithList :
  opensWithList.Acyclic
  := by
  apply Preorder.Graph.acyclic_of_rank groupRank
  intro ref child hchild
  change child ∈ opensWithList.next ref at hchild
  rw [Document.next.eq_def] at hchild
  split at hchild
  · rename_i index hindex
    simp only [groupRank, hindex]
    obtain _ | _ | index := index
    case zero =>
      obtain rfl | rfl : child = "#/groups/1" ∨ child = "#/texts/2" := by
        simpa [opensWithList] using hchild
      · decide
      · decide
    case succ.zero =>
      obtain rfl : child = "#/texts/1" := by simpa [opensWithList] using hchild
      decide
    case succ.succ => simp [opensWithList] at hchild
  · simp [opensWithList] at hchild
  · simp [opensWithList] at hchild
  · cases hchild

theorem renderSplitPage_right_iff_opensWithList :
  SplitsRight opensWithList ↔ PagesLead opensWithList
  := renderSplitPage_right_iff opensWithList acyclic_opensWithList

/-- The list stands on the second page. -/
theorem renderSplitPage_opensWithList :
  opensWithList.Acyclic ∧ ¬ SplitsRight opensWithList
  := by
  refine ⟨acyclic_opensWithList, ?_⟩
  rintro ⟨renderer, hwalk, -, -, -, hplaced⟩
  have htrace : (walk opensWithList).map (fun renderer => (renderer.trace, renderer.elementPages)) =
      some ([.item [⟨1⟩], .element (bytes "<p>a</p>"),
        .group { label := .list, children := ["#/groups/1", "#/texts/2"] },
        .element (bytes "<ul><li><ul><li>b</li></ul></li><li>c</li></ul>")], [1, 2]) := by
    decide
  rw [hwalk, Option.map_some, Option.some.injEq, Prod.mk.injEq] at htrace
  rw [htrace.1, htrace.2] at hplaced
  have hpage := hplaced.own [.item [⟨1⟩], .element (bytes "<p>a</p>")] _ _ [] rfl 1 (by decide)
  exact absurd hpage (by decide)

end GRParse.Export
