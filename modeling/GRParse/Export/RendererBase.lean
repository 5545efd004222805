import GRParse.Export.Items
import GRParse.Lib.Consuming
import GRParse.Render.GridBounds

/-!
# What renderers have in common

The set of consumed references and the grid budget of a document.  A renderer that goes on from a
reference only when it consumes it cannot go deeper than there are references in the document.

A table whose offsets overflow has no grid that the language defines; the flag says that one was
rendered.  The list of the tables that were rendered is not kept by the code.
-/

namespace GRParse.Export

open Grids List

/-! ### References -/

/-- The references to the children of a text. -/
def textChildren (item : BaseTextItem) : List String :=
  match item with
  | .code code => code.children
  | item => ((textBase item).map TextItemBase.children).getD []

/-- The references of the cells of a table. -/
def cellRefs (data : TableData) : List String :=
  (data.tableCells ++ data.grid.flatten).filterMap TableCell.ref

namespace Document

variable (document : Document)

/-- The references that a renderer may come to. -/
def references : List String :=
  document.listed ++ document.texts.flatMap textChildren ++
    document.tables.flatMap (fun table => table.captions ++ table.footnotes ++ cellRefs table.data) ++
    document.pictures.flatMap fun picture => picture.captions ++ picture.footnotes

/-- How deep a renderer may go. -/
def reach : ℕ :=
  document.references.length + 1

/-- The references that are left to consume. -/
def leftOf (consumed : Finset String) : ℕ :=
  Consuming.left document.references.toFinset consumed

theorem leftOf_lt_reach (consumed : Finset String) :
  document.leftOf consumed < document.reach
  := by
  have hcard := @Consuming.left_le_card _ _ document.references.toFinset consumed
  exact Nat.lt_succ_of_le (hcard.trans (toFinset_card_le _))

variable {document}

theorem leftOf_le {consumed consumed' : Finset String} (h : consumed ⊆ consumed') :
  document.leftOf consumed' ≤ document.leftOf consumed
  := Consuming.left_le h

variable {ref : String}

theorem leftOf_insert_lt {consumed : Finset String} (h : ref ∈ document.references)
    (hfresh : ref ∉ consumed) :
  document.leftOf (insert ref consumed) < document.leftOf consumed
  := Consuming.left_insert_lt (mem_toFinset.mpr h) hfresh

theorem mem_references_of_listed (h : ref ∈ document.listed) :
  ref ∈ document.references
  := mem_append_left _ (mem_append_left _ (mem_append_left _ h))

theorem mem_references_of_body (h : ref ∈ document.body.children) :
  ref ∈ document.references
  := mem_references_of_listed
    (mem_append_left _ (mem_append_left _ (mem_append_left _ h)))

theorem mem_references_of_group {index : ℕ} {group : GroupItem}
    (hgroup : document.groups[index]? = some group) (h : ref ∈ group.children) :
  ref ∈ document.references
  := mem_references_of_listed (mem_append_left _ (mem_append_left _
    (mem_append_right _ (mem_flatMap.mpr ⟨group, mem_of_getElem? hgroup, h⟩))))

theorem mem_references_of_fieldRegion {index : ℕ} {children : List String}
    (hregion : document.fieldRegions[index]? = some children) (h : ref ∈ children) :
  ref ∈ document.references
  := mem_references_of_listed (mem_append_left _ (mem_append_right _
    (mem_flatten.mpr ⟨children, mem_of_getElem? hregion, h⟩)))

theorem mem_references_of_fieldItem {index : ℕ} {children : List String}
    (hitem : document.fieldItems[index]? = some children) (h : ref ∈ children) :
  ref ∈ document.references
  := mem_references_of_listed (mem_append_right _
    (mem_flatten.mpr ⟨children, mem_of_getElem? hitem, h⟩))

theorem exists_of_groupAt {group : GroupItem} (h : document.groupAt ref = some group) :
  ∃ index : ℕ, document.groups[index]? = some group
  := by
  rw [groupAt.eq_def] at h
  split at h
  · exact ⟨_, h⟩
  · cases h

end Document

/-! ### The base -/

/-- The members of `RendererBase` that change, with the tables that were rendered and whether one
of them overflowed. -/
structure RendererBase where
  consumed : Finset String := ∅
  gridBudget : GridBudget := {}
  tables : List TableData := []
  overflowed : Bool := false

namespace RendererBase

/-- `consume`, for a reference that is not consumed yet. -/
def consume (ref : String) (base : RendererBase) : RendererBase :=
  { base with consumed := insert ref base.consumed }

/-- `caption_texts`. -/
def captionTexts (document : Document) (captions : List String) (base : RendererBase) :
    List Text × RendererBase :=
  let (texts, consumed) := document.captionTexts captions base.consumed
  (texts, { base with consumed })

/-- `table_grid`. -/
def tableGrid (data : TableData) (base : RendererBase) : Grid × RendererBase :=
  match Grids.tableGrid data base.gridBudget with
  | some sheet =>
    (sheet.grid, { base with gridBudget := sheet.budget, tables := base.tables ++ [data] })
  | none => ([], { base with tables := base.tables ++ [data], overflowed := true })

/-- The base has overflowed when a table that does not fit was rendered. -/
def Tells (base : RendererBase) : Prop :=
  base.overflowed = true ↔ ∃ data ∈ base.tables, ¬ (Job.mk data false).Fits

/-- What the operations on the base do: they forget no reference, and keep the flag right. -/
structure Goes (base base' : RendererBase) : Prop where
  consumed : base.consumed ⊆ base'.consumed
  tells : base.Tells → base'.Tells

theorem Goes.refl (base : RendererBase) :
  base.Goes base
  := ⟨Finset.Subset.refl _, id⟩

theorem Goes.trans {base base' base'' : RendererBase} (h : base.Goes base')
    (h' : base'.Goes base'') :
  base.Goes base''
  := ⟨h.consumed.trans h'.consumed, h'.tells ∘ h.tells⟩

theorem goes_consume (ref : String) (base : RendererBase) :
  base.Goes (base.consume ref)
  := ⟨Finset.subset_insert _ _, id⟩

theorem subset_captionBases (document : Document) (captions : List String)
    (consumed : Finset String) :
  consumed ⊆ (document.captionBases captions consumed).2
  := by
  rw [Document.captionBases]
  generalize ([] : List TextItemBase) = bases
  induction captions generalizing bases consumed with
  | nil => exact Finset.Subset.refl consumed
  | cons caption captions ih =>
    rw [foldl_cons]
    cases document.textAt caption with
    | none => exact ih consumed bases
    | some item => exact (Finset.subset_insert caption consumed).trans (ih _ _)

theorem goes_captionTexts (document : Document) (captions : List String) (base : RendererBase) :
  base.Goes (base.captionTexts document captions).2
  := ⟨subset_captionBases document captions base.consumed, id⟩

theorem goes_tableGrid (data : TableData) (base : RendererBase) :
  base.Goes (base.tableGrid data).2
  := by
  obtain ⟨hfits, hfails⟩ := (Job.mk data false).render_spec base.gridBudget
  have hrender : (Job.mk data false).render base.gridBudget =
      Grids.tableGrid data base.gridBudget := by
    rw [Job.render, if_neg Bool.false_ne_true]
  rw [hrender] at hfits hfails
  rw [tableGrid]
  cases hsheet : Grids.tableGrid data base.gridBudget with
  | some sheet =>
    refine ⟨Finset.Subset.refl _, ?_⟩
    intro htells
    have hdata : (Job.mk data false).Fits := by
      by_contra hnot
      rw [hfails hnot] at hsheet
      cases hsheet
    simpa [Tells, mem_append, or_and_right, exists_or, hdata] using htells
  | none =>
    refine ⟨Finset.Subset.refl _, ?_⟩
    intro _
    have hdata : ¬ (Job.mk data false).Fits := by
      intro hdata
      obtain ⟨sheet, hsome, -⟩ := hfits hdata
      rw [hsome] at hsheet
      cases hsheet
    simp [Tells, hdata]

end RendererBase

end GRParse.Export
