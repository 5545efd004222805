import GRParse.Export.Html
import GRParse.Lib.Preorder

/-!
# The walk of the export to HTML

A rule for what holds all along the walk, and the walk's end: over a document whose references do
not run in circles, no look-ahead and no list goes deeper than there are references.
-/

namespace GRParse.Export

open Grids List Option

/-! ### What holds all along the walk -/

namespace HtmlRenderer

/-- A property that the operations of the renderer keep. -/
structure Kept (document : Document) (P : HtmlRenderer → Prop) : Prop where
  consumes : ∀ renderer consumed, P renderer → P { renderer with consumed }
  spends : ∀ renderer gridBudget, P renderer → P { renderer with gridBudget }
  notes : ∀ renderer prov, P renderer → P (renderer.notePage prov)
  notesGroup : ∀ renderer group page, P renderer →
    noteGroupPage document document.depth group renderer.currentPage = some page →
    P { renderer with currentPage := page, trace := renderer.trace ++ [.group group] }
  adds : ∀ renderer element, element ≠ [] → P renderer → P (renderer.addElement element)

variable {document : Document} {P : HtmlRenderer → Prop}

theorem Kept.addElement (h : Kept document P) {renderer : HtmlRenderer} (element : Text)
    (hrenderer : P renderer) :
  P (renderer.addElement element)
  := by
  by_cases hempty : element = []
  · rw [HtmlRenderer.addElement, hempty]
    exact hrenderer
  · exact h.adds renderer element hempty hrenderer

theorem Kept.tableGrid (h : Kept document P) {renderer : HtmlRenderer} (data : TableData)
    (hrenderer : P renderer) :
  P (renderer.tableGrid data).2
  := by
  rw [HtmlRenderer.tableGrid]
  cases Grids.tableGrid data renderer.gridBudget with
  | none => exact hrenderer
  | some sheet => exact h.spends _ _ hrenderer

theorem Kept.captionTexts (h : Kept document P) {renderer : HtmlRenderer} (captions : List String)
    (hrenderer : P renderer) :
  P (renderer.captionTexts document captions).2
  := h.consumes _ _ hrenderer

theorem Kept.footnoteDivs (h : Kept document P) {renderer : HtmlRenderer} (footnotes : List String)
    (hrenderer : P renderer) :
  P (renderer.footnoteDivs document footnotes).2
  := h.consumes _ _ hrenderer

theorem Kept.renderCode (h : Kept document P) {renderer : HtmlRenderer} (code : CodeItem)
    (hrenderer : P renderer) :
  P (renderer.renderCode document code)
  := by
  rw [HtmlRenderer.renderCode]
  split
  · exact hrenderer
  · have hnoted := h.notes _ code.prov hrenderer
    have hclaimed := h.footnoteDivs code.footnotes (h.captionTexts code.captions hnoted)
    dsimp only
    split
    · exact h.addElement _ hclaimed
    · exact h.addElement _ hclaimed

theorem Kept.renderText (h : Kept document P) {renderer : HtmlRenderer} (item : BaseTextItem)
    (hrenderer : P renderer) :
  P (renderer.renderText document item)
  := by
  rw [HtmlRenderer.renderText.eq_def]
  split
  · exact h.renderCode _ hrenderer
  · split
    · exact hrenderer
    · split
      · exact hrenderer
      · exact h.addElement _ (h.notes _ _ hrenderer)

theorem Kept.renderTable (h : Kept document P) {renderer : HtmlRenderer} (table : TableItem)
    (hrenderer : P renderer) :
  P (renderer.renderTable document table)
  := by
  rw [HtmlRenderer.renderTable]
  split
  · exact hrenderer
  · have hnoted := h.notes _ table.prov hrenderer
    have hclaimed := h.footnoteDivs table.footnotes (h.captionTexts table.captions hnoted)
    have hgrid := h.tableGrid table.data hclaimed
    dsimp only
    split
    · exact h.addElement _ hgrid
    · exact h.addElement _ hgrid

theorem Kept.renderPicture (h : Kept document P) {renderer : HtmlRenderer} (picture : PictureItem)
    (hrenderer : P renderer) :
  P (renderer.renderPicture document picture)
  := by
  rw [HtmlRenderer.renderPicture]
  split
  · exact hrenderer
  · have hnoted := h.notes _ picture.prov hrenderer
    exact h.addElement _ (h.footnoteDivs picture.footnotes
      (h.captionTexts picture.captions hnoted))

theorem Kept.renderChildren {render : String → HtmlRenderer → Option HtmlRenderer}
    (hrender : ∀ child renderer result, render child renderer = some result → P renderer → P result)
    {children : List String} {renderer result : HtmlRenderer}
    (hresult : renderChildren render children renderer = some result) (hrenderer : P renderer) :
  P result
  := by
  induction children generalizing renderer with
  | nil =>
    obtain rfl := some.inj hresult
    exact hrenderer
  | cons child children ih =>
    rw [HtmlRenderer.renderChildren, foldlM_cons, bind_eq_bind,
      bind_eq_some_iff] at hresult
    obtain ⟨middle, hfirst, hrest⟩ := hresult
    exact ih hrest (hrender child renderer middle hfirst hrenderer)

theorem Kept.renderGroup (h : Kept document P)
    {render : String → HtmlRenderer → Option HtmlRenderer}
    (hrender : ∀ child renderer result, render child renderer = some result → P renderer → P result)
    {group : GroupItem} {renderer result : HtmlRenderer}
    (hresult : renderer.renderGroup document render group = some result) (hrenderer : P renderer) :
  P result
  := by
  have hnoted (noted : HtmlRenderer) (hnote : renderer.noteGroup document group = some noted) :
      P noted := by
    rw [noteGroup, bind_eq_bind, bind_eq_some_iff] at hnote
    obtain ⟨page, hpage, hnote⟩ := hnote
    rw [← some.inj hnote]
    exact h.notesGroup _ _ _ hrenderer hpage
  rw [HtmlRenderer.renderGroup] at hresult
  split at hresult
  · rw [← some.inj hresult]
    exact hrenderer
  split at hresult
  · simp only [bind_eq_bind, bind_eq_some_iff] at hresult
    obtain ⟨noted, hnote, ⟨list, consumed⟩, -, hadd⟩ := hresult
    rw [← some.inj hadd]
    exact h.addElement _ (h.consumes _ _ (hnoted noted hnote))
  split at hresult
  · simp only [bind_eq_bind, bind_eq_some_iff] at hresult
    obtain ⟨noted, hnote, hadd⟩ := hresult
    have hclaimed := h.consumes noted
      (inlineParagraph document group.children noted.consumed).2 (hnoted noted hnote)
    rw [← some.inj hadd]
    split
    · exact hclaimed
    · exact h.addElement _ hclaimed
  · exact Kept.renderChildren hrender hresult hrenderer

theorem Kept.renderRef (h : Kept document P) {fuel : ℕ} {raw : String}
    {renderer result : HtmlRenderer} (hresult : renderRef document fuel raw renderer = some result)
    (hrenderer : P renderer) :
  P result
  := by
  induction fuel generalizing raw renderer result with
  | zero => cases hresult
  | succ fuel ih =>
    rw [HtmlRenderer.renderRef] at hresult
    split at hresult
    · rw [← some.inj hresult]
      exact hrenderer
    have hconsumed := h.consumes renderer (insert raw renderer.consumed) hrenderer
    dsimp only at hresult
    split at hresult
    case h_1 index _ =>
      rw [← some.inj hresult]
      cases document.texts[index]? with
      | none => exact hconsumed
      | some item => exact h.renderText item hconsumed
    case h_2 index _ =>
      rw [← some.inj hresult]
      cases document.tables[index]? with
      | none => exact hconsumed
      | some table => exact h.renderTable table hconsumed
    case h_3 index _ =>
      rw [← some.inj hresult]
      cases document.pictures[index]? with
      | none => exact hconsumed
      | some picture => exact h.renderPicture picture hconsumed
    case h_4 index _ =>
      cases hgroup : document.groups[index]? with
      | none =>
        rw [hgroup] at hresult
        rw [← some.inj hresult]
        exact hconsumed
      | some group =>
        rw [hgroup] at hresult
        exact h.renderGroup (fun _ _ _ => ih) hresult hconsumed
    case h_5 =>
      rw [← some.inj hresult]
      exact h.addElement _ hconsumed
    case h_6 =>
      rw [← some.inj hresult]
      exact h.addElement _ hconsumed
    case h_7 index _ =>
      cases hregion : document.fieldRegions[index]? with
      | none =>
        rw [hregion] at hresult
        rw [← some.inj hresult]
        exact hconsumed
      | some children =>
        rw [hregion] at hresult
        exact Kept.renderChildren (fun _ _ _ => ih) hresult hconsumed
    case h_8 index _ =>
      cases hitem : document.fieldItems[index]? with
      | none =>
        rw [hitem] at hresult
        rw [← some.inj hresult]
        exact hconsumed
      | some children =>
        rw [hitem] at hresult
        exact Kept.renderChildren (fun _ _ _ => ih) hresult hconsumed
    case h_9 =>
      rw [← some.inj hresult]
      exact hconsumed

/-- What holds at first and is kept holds at the end. -/
theorem Kept.walk (h : Kept document P) (hstart : P {}) {renderer : HtmlRenderer}
    (hwalk : walk document = some renderer) :
  P renderer
  := Kept.renderChildren (fun _ _ _ => h.renderRef) hwalk hstart

end HtmlRenderer

/-! ### The end of the walk -/

variable {ref : String} {group : GroupItem}

namespace Document

variable {document : Document}

/-- What a reference leads to is listed. -/
theorem next_subset_listed (document : Document) (ref : String) :
  ∀ child ∈ document.next ref, child ∈ document.listed
  := by
  intro child hchild
  rw [listed, mem_append, mem_append, mem_append, mem_flatMap,
    mem_flatten, mem_flatten]
  rw [next.eq_def] at hchild
  split at hchild
  · rename_i index _
    cases hgroup : document.groups[index]? with
    | none => simp [hgroup] at hchild
    | some group =>
      rw [hgroup] at hchild
      exact .inl (.inl (.inr ⟨group, mem_of_getElem? hgroup, hchild⟩))
  · rename_i index _
    cases hregion : document.fieldRegions[index]? with
    | none => simp [hregion] at hchild
    | some children =>
      rw [hregion] at hchild
      exact .inl (.inr ⟨children, mem_of_getElem? hregion, hchild⟩)
  · rename_i index _
    cases hitem : document.fieldItems[index]? with
    | none => simp [hitem] at hchild
    | some children =>
      rw [hitem] at hchild
      exact .inr ⟨children, mem_of_getElem? hitem, hchild⟩
  · cases hchild

/-- The references of a document as a graph. -/
def graph (document : Document) : Preorder.Graph String where
  next := document.next
  nodes := document.listed.toFinset
  closed ref child hchild := List.mem_toFinset.mpr (document.next_subset_listed ref child hchild)

/-- No reference leads back to itself. -/
def Acyclic (document : Document) : Prop :=
  document.graph.Acyclic

/-- A reference of an acyclic document has a rank below its depth, and what it leads to a lower one. -/
theorem Acyclic.exists_rank (h : document.Acyclic) :
  ∃ rank : String → ℕ, (∀ ref, rank ref < document.depth) ∧
    ∀ ref, ∀ child ∈ document.next ref, rank child < rank ref
  := by
  obtain ⟨rank, hle, hlt⟩ := Preorder.Graph.Acyclic.exists_rank h
  refine ⟨rank, ?_, hlt⟩
  intro ref
  exact Nat.lt_succ_of_le ((hle ref).trans (toFinset_card_le _))

theorem next_of_groupAt (h : document.groupAt ref = some group) :
  document.next ref = group.children
  := by
  rw [groupAt.eq_def] at h
  rw [next.eq_def]
  split at h
  · rename_i index hindex
    rw [hindex]
    dsimp only
    rw [h]
    rfl
  · cases h

end Document

namespace HtmlRenderer

variable {document : Document}

/-- A loop ends when its steps do. -/
theorem exists_foldlM {α σ : Type} {step : σ → α → Option σ} {l : List α}
    (h : ∀ a ∈ l, ∀ s, ∃ s', step s a = some s') (s : σ) :
  ∃ s', l.foldlM step s = some s'
  := by
  induction l generalizing s with
  | nil => exact ⟨s, rfl⟩
  | cons a l ih =>
    obtain ⟨hhead, htail⟩ := forall_mem_cons.mp h
    obtain ⟨middle, hmiddle⟩ := hhead s
    obtain ⟨s', hs'⟩ := ih htail middle
    use s'
    rw [foldlM_cons, hmiddle]
    exact hs'

theorem exists_noteChildren {note : GroupItem → ℤ → Option ℤ} {children : List String}
    (h : ∀ child ∈ children, ∀ group, document.groupAt child = some group →
      ∀ page, ∃ found, note group page = some found) (page : ℤ) :
  ∃ found, noteChildren document note children page = some found
  := by
  induction children with
  | nil => exact ⟨page, rfl⟩
  | cons child children ih =>
    obtain ⟨hchild, hchildren⟩ := forall_mem_cons.mp h
    obtain ⟨rest, hrest⟩ := ih hchildren
    rw [noteChildren]
    cases document.textAt child with
    | some item =>
      cases hpage : pageOfText item with
      | some found => exact ⟨found, by simp [hpage]⟩
      | none => exact ⟨rest, by simpa [hpage] using hrest⟩
    | none =>
      cases hgroup : document.groupAt child with
      | none => exact ⟨rest, hrest⟩
      | some group =>
        obtain ⟨found, hfound⟩ := hchild group hgroup page
        by_cases hmoved : found = page
        · exact ⟨rest, by simpa [hfound, hmoved] using hrest⟩
        · exact ⟨found, by simp [hfound, hmoved]⟩

section

variable {rank : String → ℕ} (hrank : ∀ ref, ∀ child ∈ document.next ref, rank child < rank ref)

include hrank

theorem exists_noteGroupPage {fuel : ℕ} (hgroup : document.groupAt ref = some group)
    (hfuel : rank ref < fuel) (page : ℤ) :
  ∃ found, noteGroupPage document fuel group page = some found
  := by
  induction fuel generalizing ref group page with
  | zero => omega
  | succ fuel ih =>
    apply exists_noteChildren
    intro child hchild nested hnested
    rw [← Document.next_of_groupAt hgroup] at hchild
    have hlower := hrank ref child hchild
    exact ih hnested (by omega)

theorem exists_renderList {fuel : ℕ} (hgroup : document.groupAt ref = some group)
    (hfuel : rank ref < fuel) (consumed : Finset String) :
  ∃ result, renderList document fuel group consumed = some result
  := by
  induction fuel generalizing ref group consumed with
  | zero => omega
  | succ fuel ih =>
    have hstep : ∀ child ∈ group.children, ∀ state, ∃ state',
        renderListChild document (renderList document fuel) state child = some state' := by
      intro child hchild state
      rw [← Document.next_of_groupAt hgroup] at hchild
      have hlower := hrank ref child hchild
      rw [renderListChild]
      cases hnested : document.groupAt child with
      | some nested =>
        dsimp only
        split
        · obtain ⟨⟨list, consumed'⟩, hlist⟩ :=
            ih hnested (by omega) (insert child state.2)
          rw [hlist]
          exact ⟨_, rfl⟩
        · exact ⟨_, rfl⟩
      | none =>
        dsimp only
        split
        · exact ⟨_, rfl⟩
        split
        · exact ⟨_, rfl⟩
        split
        · exact ⟨_, rfl⟩
        split
        · exact ⟨_, rfl⟩
        · exact ⟨_, rfl⟩
    obtain ⟨⟨items, consumed'⟩, hitems⟩ := exists_foldlM hstep ([], consumed)
    rw [renderList, hitems]
    exact ⟨_, rfl⟩

/-- A group whose children's walks end, does end. -/
theorem exists_renderGroup {render : String → HtmlRenderer → Option HtmlRenderer}
    (hgroup : document.groupAt ref = some group) (hfuel : rank ref < document.depth)
    (hrender : ∀ child ∈ group.children, ∀ renderer, ∃ result, render child renderer = some result)
    (renderer : HtmlRenderer) :
  ∃ result, renderer.renderGroup document render group = some result
  := by
  obtain ⟨page, hpage⟩ := exists_noteGroupPage hrank hgroup hfuel renderer.currentPage
  have hnote : renderer.noteGroup document group =
      some { renderer with currentPage := page, trace := renderer.trace ++ [.group group] } := by
    simp [noteGroup, hpage]
  rw [renderGroup]
  split
  · exact ⟨_, rfl⟩
  split
  · obtain ⟨⟨list, consumed⟩, hlist⟩ :=
      exists_renderList hrank hgroup hfuel renderer.consumed
    rw [hnote, bind_eq_bind, bind_some, hlist]
    exact ⟨_, rfl⟩
  split
  · rw [hnote]
    exact ⟨_, rfl⟩
  · exact exists_foldlM hrender renderer

theorem exists_renderRef (hdepth : ∀ ref, rank ref < document.depth) {fuel : ℕ}
    (hfuel : rank ref < fuel) (renderer : HtmlRenderer) :
  ∃ result, renderRef document fuel ref renderer = some result
  := by
  induction fuel generalizing ref renderer with
  | zero => omega
  | succ fuel ih =>
    have hchildren : ∀ child ∈ document.next ref, ∀ renderer, ∃ result,
        renderRef document fuel child renderer = some result := by
      intro child hchild
      have hlower := hrank ref child hchild
      exact ih (by omega)
    rw [renderRef]
    split
    · exact ⟨_, rfl⟩
    dsimp only
    rw [Document.next.eq_def] at hchildren
    split
    case h_4 index hindex =>
      rw [hindex] at hchildren
      dsimp only at hchildren
      cases hgroup : document.groups[index]? with
      | none => exact ⟨_, rfl⟩
      | some group =>
        rw [hgroup] at hchildren
        have hat : document.groupAt ref = some group := by
          rw [Document.groupAt, hindex]
          exact hgroup
        exact exists_renderGroup hrank hat (hdepth ref) hchildren _
    case h_7 index hindex =>
      rw [hindex] at hchildren
      dsimp only at hchildren
      cases hregion : document.fieldRegions[index]? with
      | none => exact ⟨_, rfl⟩
      | some children =>
        rw [hregion] at hchildren
        exact exists_foldlM hchildren _
    case h_8 index hindex =>
      rw [hindex] at hchildren
      dsimp only at hchildren
      cases hitem : document.fieldItems[index]? with
      | none => exact ⟨_, rfl⟩
      | some children =>
        rw [hitem] at hchildren
        exact exists_foldlM hchildren _
    all_goals exact ⟨_, rfl⟩

end

/-- The walk over an acyclic document ends. -/
theorem exists_walk (h : document.Acyclic) :
  ∃ renderer, walk document = some renderer
  := by
  obtain ⟨rank, hdepth, hrank⟩ := h.exists_rank
  apply exists_foldlM
  intro child _ renderer
  exact exists_renderRef hrank hdepth (hdepth child) renderer

end HtmlRenderer

end GRParse.Export
