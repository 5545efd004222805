import GRParse.Export.HtmlWalk

/-!
# Split pages

An element is to stand on the page of the item it was made of: of the first provenance, or for a list
or an inline group, of the first text inside that names one.  The walk looks that text up with its
cursor, and takes a group below for one that names no page when the cursor stands still.  So a group
that opens on the page the walk is on is moved on to the next page that a text inside names.
-/

namespace GRParse.Export

open HtmlRenderer List Option

/-! ### Pages of groups -/

section

variable (document : Document)

/-- The pages that the texts below some references name, in depth-first order, with those of the
groups below. -/
def pagesBelow (below : GroupItem → List ℤ) (children : List String) : List ℤ :=
  children.flatMap fun child =>
    match document.textAt child with
    | some item => (pageOfText item).toList
    | none => (document.groupAt child).elim [] below

/-- The pages that the texts inside a group name, in depth-first order. -/
def pagesIn : ℕ → GroupItem → List ℤ
  | 0, _ => []
  | fuel + 1, group => pagesBelow document (pagesIn fuel) group.children

/-- The pages of those texts that no text before them, of their own group or of one around it,
forestalls. -/
def leadingBelow (below : GroupItem → List ℤ) : List String → List ℤ
  | [] => []
  | child :: children =>
    match document.textAt child with
    | some item =>
      match pageOfText item with
      | some page => [page]
      | none => leadingBelow below children
    | none => (document.groupAt child).elim [] below ++ leadingBelow below children

def leadingPages : ℕ → GroupItem → List ℤ
  | 0, _ => []
  | fuel + 1, group => leadingBelow document (leadingPages fuel) group.children

end

/-- Where a cursor goes that moves to the first page other than the one it is on. -/
def move (page : ℤ) (pages : List ℤ) : ℤ :=
  (pages.find? (· ≠ page)).getD page

variable {document : Document}

theorem move_append (page : ℤ) (pages more : List ℤ) :
  move page (pages ++ more) = if move page pages ≠ page then move page pages else move page more
  := by
  rw [move, move, move, find?_append]
  cases hfound : pages.find? (· ≠ page) with
  | none => simp
  | some found =>
    have hne := find?_some hfound
    simp only [decide_eq_true_eq] at hne
    simp [hne]

/-- The look-ahead moves the cursor to the first other page among the leading ones. -/
theorem noteGroupPage_eq {fuel : ℕ} {group : GroupItem} {page found : ℤ}
    (h : noteGroupPage document fuel group page = some found) :
  found = move page (leadingPages document fuel group)
  := by
  induction fuel generalizing group page found with
  | zero => cases h
  | succ fuel ih =>
    rw [noteGroupPage] at h
    rw [leadingPages]
    generalize group.children = children at h ⊢
    induction children with
    | nil => exact (some.inj h).symm
    | cons child children ihc =>
      rw [noteChildren] at h
      rw [leadingBelow]
      cases htext : document.textAt child with
      | some item =>
        rw [htext] at h
        cases hpage : pageOfText item with
        | none =>
          simp only [hpage] at h ⊢
          exact ihc h
        | some named =>
          simp only [hpage] at h ⊢
          rw [← some.inj h, move]
          by_cases hnamed : named = page
          · simp [hnamed]
          · simp [hnamed]
      | none =>
        rw [htext] at h
        cases hgroup : document.groupAt child with
        | none =>
          simp only [hgroup] at h ⊢
          exact ihc h
        | some nested =>
          simp only [hgroup, bind_eq_bind, bind_eq_some_iff] at h
          obtain ⟨after, hafter, h⟩ := h
          obtain rfl := ih hafter
          simp only [elim_some]
          rw [move_append]
          split at h
          · rename_i hmoved
            rw [if_pos hmoved]
            exact (some.inj h).symm
          · rename_i hmoved
            rw [if_neg hmoved]
            rw [not_not.mp hmoved] at h
            exact ihc h

/-- The first page that is named inside a group is a leading one. -/
theorem head_leadingPages (fuel : ℕ) (group : GroupItem) :
  (leadingPages document fuel group).head? = (pagesIn document fuel group).head?
  := by
  induction fuel generalizing group with
  | zero => rfl
  | succ fuel ih =>
    rw [leadingPages, pagesIn, pagesBelow]
    induction group.children with
    | nil => rfl
    | cons child children ihc =>
      rw [leadingBelow, flatMap_cons, head?_append]
      cases document.textAt child with
      | some item =>
        cases hpage : pageOfText item with
        | none => simpa [hpage] using ihc
        | some named => simp [hpage]
      | none =>
        rw [head?_append, ihc]
        cases document.groupAt child with
        | none => rfl
        | some nested =>
          rw [elim_some, elim_some, ih nested]

variable {page : ℤ}

theorem pos_of_firstPageOf {prov : List ProvenanceItem} (h : firstPageOf prov = some page) :
  0 < page
  := by
  cases prov with
  | nil => cases h
  | cons first rest =>
    rw [firstPageOf] at h
    split at h
    · rename_i hpos
      rwa [← some.inj h]
    · cases h

theorem pos_of_pageOfText {item : BaseTextItem} (h : pageOfText item = some page) :
  0 < page
  := by
  rw [pageOfText.eq_def] at h
  split at h
  · exact pos_of_firstPageOf h
  · obtain ⟨base, -, hbase⟩ := bind_eq_some_iff.mp h
    exact pos_of_firstPageOf hbase

/-- Pages are positive. -/
theorem pos_of_mem_leadingPages {fuel : ℕ} {group : GroupItem}
    (h : page ∈ leadingPages document fuel group) :
  0 < page
  := by
  induction fuel generalizing group with
  | zero => cases h
  | succ fuel ih =>
    rw [leadingPages] at h
    generalize group.children = children at h
    induction children with
    | nil => cases h
    | cons child children ihc =>
      rw [leadingBelow] at h
      cases htext : document.textAt child with
      | some item =>
        cases hpage : pageOfText item with
        | none =>
          simp only [htext, hpage] at h
          exact ihc h
        | some named =>
          simp only [htext, hpage, mem_singleton] at h
          rw [h]
          exact pos_of_pageOfText hpage
      | none =>
        simp only [htext, mem_append] at h
        rcases h with h | h
        · cases hgroup : document.groupAt child with
          | none => simp [hgroup] at h
          | some nested =>
            rw [hgroup] at h
            exact ih h
        · exact ihc h

/-! ### The trace -/

section

variable (document : Document)

/-- The pages that a step may move the cursor to. -/
def pagesOfStep : Step → List ℤ
  | .item prov => (firstPageOf prov).toList
  | .group group => leadingPages document document.depth group
  | .element _ => []

/-- The page the walk is on after some steps: none is zero. -/
def cursor (trace : List Step) : ℤ :=
  trace.foldl (fun page step => move page (pagesOfStep document step)) 0

/-- The page that an item or a group names: the group by its first text that names one. -/
def ownPage : Step → Option ℤ
  | .item prov => firstPageOf prov
  | .group group => (pagesIn document document.depth group).head?
  | .element _ => none

/-- The page that was seen last. -/
def lastSeen (trace : List Step) : Option ℤ :=
  (trace.filterMap (ownPage document)).getLast?

/-- The page that is named first. -/
def firstNamed (trace : List Step) : Option ℤ :=
  (trace.filterMap (ownPage document)).head?

end

def madeElement : Step → Option Text
  | .element text => some text
  | _ => none

/-- The elements that are made in some steps. -/
def made (trace : List Step) : List Text :=
  trace.filterMap madeElement

/-- The pages the walk is on when it makes its elements. -/
def elementCursors (document : Document) (trace : List Step) : List ℤ :=
  (trace.foldl
    (fun (page, pages) step =>
      (move page (pagesOfStep document step),
        pages ++ (madeElement step).toList.map fun _ => page))
    ((0 : ℤ), [])).2

theorem head_pagesOfStep (step : Step) :
  (pagesOfStep document step).head? = ownPage document step
  := by
  cases step with
  | item prov =>
    rw [pagesOfStep, ownPage]
    cases firstPageOf prov <;> rfl
  | group group => exact head_leadingPages _ _
  | element text => rfl

variable (trace : List Step)

theorem cursor_concat (step : Step) :
  cursor document (trace ++ [step]) = move (cursor document trace) (pagesOfStep document step)
  := by
  rw [cursor, foldl_append]
  rfl

theorem made_concat (step : Step) :
  made (trace ++ [step]) = made trace ++ (madeElement step).toList
  := by
  rw [made, filterMap_append, made]
  cases hmade : madeElement step <;> simp [hmade]

theorem lastSeen_concat (step : Step) :
  lastSeen document (trace ++ [step]) = (ownPage document step).or (lastSeen document trace)
  := by
  rw [lastSeen, filterMap_append, getLast?_append, lastSeen]
  cases hown : ownPage document step <;> simp [hown]

theorem elementCursors_concat (step : Step) :
  elementCursors document (trace ++ [step]) =
    elementCursors document trace ++ (madeElement step).toList.map fun _ => cursor document trace
  := by
  have hcursor : (trace.foldl
      (fun (page, pages) step =>
        (move page (pagesOfStep document step),
          pages ++ (madeElement step).toList.map fun _ => page))
      ((0 : ℤ), ([] : List ℤ))).1 = cursor document trace := by
    induction trace using reverseRecOn with
    | nil => rfl
    | append_singleton trace step ih =>
      rw [cursor_concat, ← ih, foldl_append]
      rfl
  rw [elementCursors, foldl_append, ← hcursor]
  rfl

theorem length_elementCursors :
  (elementCursors document trace).length = (made trace).length
  := by
  induction trace using reverseRecOn with
  | nil => rfl
  | append_singleton trace step ih =>
    rw [elementCursors_concat, made_concat, length_append, length_append, ih,
      length_map]

/-- The page of an element is where the walk was before it. -/
theorem getElem_elementCursors (before : List Step) (text : Text) (after : List Step) :
  (elementCursors document (before ++ .element text :: after))[(made before).length]? =
    some (cursor document before)
  := by
  induction after using List.reverseRecOn with
  | nil =>
    rw [elementCursors_concat, ← length_elementCursors]
    exact List.getElem?_concat_length
  | append_singleton after step ih =>
    rw [← List.cons_append, ← List.append_assoc, elementCursors_concat]
    rw [List.getElem?_append_left (List.getElem?_eq_some_iff.mp ih).1]
    exact ih

/-- What a renderer knows of its trace. -/
structure Traced (document : Document) (renderer : HtmlRenderer) : Prop where
  page : renderer.currentPage = cursor document renderer.trace
  elements : renderer.elements = made renderer.trace
  pages : renderer.elementPages = elementCursors document renderer.trace

/-- A step that makes no element leaves the elements and their pages as they are. -/
theorem Traced.step {renderer : HtmlRenderer} (h : Traced document renderer) (step : Step)
    (hnone : madeElement step = none) :
  Traced document { renderer with
    currentPage := move renderer.currentPage (pagesOfStep document step)
    trace := renderer.trace ++ [step] }
  := by
  constructor
  case page => rw [cursor_concat, h.page]
  case elements =>
    rw [made_concat, hnone, ← h.elements]
    exact (append_nil _).symm
  case pages =>
    rw [elementCursors_concat, hnone, ← h.pages]
    exact (append_nil _).symm

theorem kept_traced (document : Document) :
  Kept document (Traced document)
  := by
  constructor
  case consumes => exact fun _ _ h => ⟨h.page, h.elements, h.pages⟩
  case spends => exact fun _ _ h => ⟨h.page, h.elements, h.pages⟩
  case notes =>
    intro renderer prov h
    have hmove : move renderer.currentPage (pagesOfStep document (.item prov)) =
        (firstPageOf prov).getD renderer.currentPage := by
      rw [move, pagesOfStep]
      cases firstPageOf prov with
      | none => rfl
      | some page =>
        by_cases hpage : page = renderer.currentPage
        · simp [hpage]
        · simp [hpage]
    have hstep := h.step (.item prov) rfl
    rw [hmove] at hstep
    exact hstep
  case notesGroup =>
    intro renderer group page h hpage
    rw [noteGroupPage_eq hpage]
    exact h.step (.group group) rfl
  case adds =>
    intro renderer element hne h
    rw [addElement, if_neg (by simpa using hne)]
    constructor
    case page =>
      rw [cursor_concat, ← h.page]
      rfl
    case elements =>
      rw [made_concat, ← h.elements]
      rfl
    case pages =>
      rw [elementCursors_concat, ← h.pages, ← h.page]
      rfl

theorem traced_walk {renderer : HtmlRenderer} (h : walk document = some renderer) :
  Traced document renderer
  := (kept_traced document).walk ⟨rfl, rfl, rfl⟩ h

/-! ### Where the cursor is -/

theorem cursor_of_silent {before between : List Step}
    (h : ∀ step ∈ between, ownPage document step = none) :
  cursor document (before ++ between) = cursor document before
  := by
  induction between using reverseRecOn with
  | nil => rw [append_nil]
  | append_singleton between step ih =>
    rw [forall_mem_append, forall_mem_singleton] at h
    have hnone : pagesOfStep document step = [] := by
      rw [← head?_eq_none_iff, head_pagesOfStep]
      exact h.2
    rw [← append_assoc, cursor_concat, hnone, ih h.1]
    rfl

/-- The cursor is on a page once one has been seen. -/
theorem cursor_eq_zero_iff :
  0 ≤ cursor document trace ∧ (cursor document trace = 0 ↔ lastSeen document trace = none)
  := by
  induction trace using reverseRecOn with
  | nil => exact ⟨le_rfl, iff_of_true rfl rfl⟩
  | append_singleton trace step ih =>
    have hpages : ∀ page ∈ pagesOfStep document step, 0 < page := by
      intro page hpage
      cases step with
      | item prov =>
        rw [pagesOfStep, mem_toList] at hpage
        exact pos_of_firstPageOf hpage
      | group group => exact pos_of_mem_leadingPages hpage
      | element text => cases hpage
    rw [cursor_concat, lastSeen_concat, ← head_pagesOfStep]
    cases hstep : pagesOfStep document step with
    | nil => exact ih
    | cons page pages =>
      rw [hstep] at hpages
      have hpos : 0 < move (cursor document trace) (page :: pages) := by
        rw [move]
        cases hfound : (page :: pages).find? (· ≠ cursor document trace) with
        | some found => exact hpages found (mem_of_find?_eq_some hfound)
        | none =>
          have hsame := find?_eq_none.mp hfound page mem_cons_self
          rw [decide_eq_true_eq, not_not] at hsame
          rw [getD_none, ← hsame]
          exact hpages page mem_cons_self
      exact ⟨hpos.le, iff_of_false hpos.ne' (by simp)⟩

/-- The page seen last was named by some step, and by none after it. -/
theorem exists_of_lastSeen {trace : List Step} (h : lastSeen document trace = some page) :
  ∃ before step between, trace = before ++ step :: between ∧ ownPage document step = some page ∧
    ∀ later ∈ between, ownPage document later = none
  := by
  induction trace using reverseRecOn with
  | nil => cases h
  | append_singleton trace step ih =>
    rw [lastSeen_concat] at h
    cases hown : ownPage document step with
    | some named =>
      rw [hown] at h
      exact ⟨trace, step, [], rfl, hown.trans h, by simp⟩
    | none =>
      rw [hown, none_or] at h
      obtain ⟨before, naming, between, rfl, hnaming, hbetween⟩ := ih h
      refine ⟨before, naming, between ++ [step], by simp, hnaming, ?_⟩
      rw [forall_mem_append, forall_mem_singleton]
      exact ⟨hbetween, hown⟩

theorem lastSeen_of_silent {before between : List Step} {step : Step}
    (hstep : ownPage document step = some page)
    (h : ∀ later ∈ between, ownPage document later = none) :
  lastSeen document (before ++ step :: between) = some page
  := by
  induction between using reverseRecOn with
  | nil => rw [lastSeen_concat, hstep, some_or]
  | append_singleton between later ih =>
    rw [forall_mem_append, forall_mem_singleton] at h
    rw [← cons_append, ← append_assoc, lastSeen_concat, h.2, none_or, ih h.1]

/-- Wherever an element is made, the cursor is on the page seen last. -/
def CursorSees (document : Document) (trace : List Step) : Prop :=
  ∀ before text after, trace = before ++ .element text :: after →
    ∀ page, lastSeen document before = some page → cursor document before = page

/-- No element is made on account of a group that opens on the page the walk is on while a later
leading text inside names another one, nor behind such a group before a page is named again. -/
def OpensRight (document : Document) (trace : List Step) : Prop :=
  ∀ before group between text after,
    trace = before ++ .group group :: between ++ .element text :: after →
    (∀ step ∈ between, ownPage document step = none) →
    (pagesIn document document.depth group).head? = some (cursor document before) →
    ∀ page ∈ leadingPages document document.depth group, page = cursor document before

theorem move_eq_self_iff {pages : List ℤ} :
  move page pages = page ↔ ∀ other ∈ pages, other = page
  := by
  rw [move]
  cases hfound : pages.find? (· ≠ page) with
  | none =>
    rw [find?_eq_none] at hfound
    simp only [decide_eq_true_eq, not_not] at hfound
    exact iff_of_true rfl hfound
  | some found =>
    have hne := find?_some hfound
    rw [decide_eq_true_eq] at hne
    exact iff_of_false hne fun hall => hne (hall found (mem_of_find?_eq_some hfound))

theorem cursorSees_iff :
  CursorSees document trace ↔ OpensRight document trace
  := by
  constructor
  · intro h before group between text after htrace hbetween hhead
    have hseen : lastSeen document (before ++ .group group :: between) =
        some (cursor document before) := lastSeen_of_silent hhead hbetween
    have hcursor := h _ text after htrace _ hseen
    rw [append_cons, cursor_of_silent hbetween, cursor_concat] at hcursor
    exact move_eq_self_iff.mp hcursor
  · intro h before text after htrace page hseen
    obtain ⟨front, step, between, rfl, hstep, hbetween⟩ := exists_of_lastSeen hseen
    rw [append_cons, cursor_of_silent hbetween, cursor_concat]
    have hhead := hstep
    rw [← head_pagesOfStep] at hhead
    by_cases hsame : page = cursor document front
    · rw [hsame]
      apply move_eq_self_iff.mpr
      cases step with
      | item prov =>
        rw [ownPage] at hstep
        rw [pagesOfStep, hstep, ← hsame]
        simp
      | group group => exact h front group between text after htrace hbetween (hsame ▸ hstep)
      | element text => cases hstep
    · obtain ⟨pages, hpages⟩ := head?_eq_some_iff.mp hhead
      rw [move, hpages, find?_cons_of_pos (by simpa using hsame)]
      rfl

end GRParse.Export
