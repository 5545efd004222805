import GRParse.Export.DocsValue

/-!
# The payload is consistent with itself

All along the walk the writer holds the elements of the content, in their order; the index is how
many there are, and the placeholders are those of the pictures among them.  The levels of a list only
grow, so a bullet that was declared once stays declared.  Each reference is consumed before the walk
goes on from it, so the walk ends over any document.
-/

namespace GRParse.Export

open Chunking Consuming Grids Json Render JsonWriter List Export.Document

/-! ### Levels -/

/-- A list declares a level. -/
def Declares (lists : List (List Bool)) (list level : ℕ) : Prop :=
  ∃ levels, lists[list]? = some levels ∧ level < levels.length

/-- Every list that was opened declares its levels still. -/
def Grows (lists lists' : List (List Bool)) : Prop :=
  ∀ list level, Declares lists list level → Declares lists' list level

theorem grows_append (lists more : List (List Bool)) :
  Grows lists (lists ++ more)
  := by
  rintro list level ⟨levels, hlevels, hlt⟩
  refine ⟨levels, ?_, hlt⟩
  rw [List.getElem?_append_left (List.getElem?_eq_some_iff.mp hlevels).1]
  exact hlevels

theorem declares_openList (lists : List (List Bool)) (enumerated : Bool) :
  Declares (lists ++ [[enumerated]]) lists.length 0
  := ⟨[enumerated], by simp, Nat.zero_lt_one⟩

/-- A list that only grows declares its levels still. -/
theorem grows_modify (lists : List (List Bool)) (list : ℕ) {f : List Bool → List Bool}
    (hf : ∀ levels, levels.length ≤ (f levels).length) :
  Grows lists (lists.modify list f)
  := by
  rintro other level ⟨levels, hlevels, hlt⟩
  by_cases hlist : list = other
  · refine ⟨f levels, ?_, hlt.trans_le (hf levels)⟩
    rw [← hlist, getElem?_modify_eq, hlist, hlevels]
    rfl
  · refine ⟨levels, ?_, hlt⟩
    rw [getElem?_modify_ne _ _ hlist]
    exact hlevels

/-- A level that is recorded is declared. -/
theorem declares_recordLevel {renderer : GdocsRenderer} {list : ℕ}
    (h : Declares renderer.lists list 0) (level : ℕ) (enumerated : Bool) :
  Declares (renderer.recordLevel list level enumerated).lists list level
  := by
  obtain ⟨levels, hlevels, -⟩ := h
  refine ⟨levels ++ replicate (level + 1 - levels.length) enumerated, ?_, ?_⟩
  · simp [GdocsRenderer.recordLevel, hlevels]
  · rw [length_append, length_replicate]
    omega

/-! ### Elements -/

/-- The bullets of an element are declared. -/
def Element.Listed (lists : List (List Bool)) (element : Element) : Prop :=
  ∀ written bullet, element = .paragraph written → written.bullet = some bullet →
    Declares lists bullet.list bullet.nestingLevel

/-- The placeholders of the pictures among elements, each with the place of its element. -/
def placeholdersOf (content : List Element) : List Placeholder :=
  content.zipIdx.filterMap fun entry =>
    match entry.1 with
    | .picture picture _ => some (placeholderOf picture entry.2)
    | _ => none

theorem placeholdersOf_concat (content : List Element) (element : Element) :
  placeholdersOf (content ++ [element]) = placeholdersOf content ++
    match element with
    | .picture picture _ => [placeholderOf picture content.length]
    | _ => []
  := by
  rw [placeholdersOf, placeholdersOf, zipIdx_append, filterMap_append]
  cases element with
  | paragraph written => simp
  | picture picture caption => simp
  | table grid => simp

/-! ### What the walk keeps -/

namespace GdocsRenderer

/-- What holds all along the walk from a writer on. -/
structure Sound (start : JsonWriter) (renderer : GdocsRenderer) : Prop where
  writer : renderer.writer = renderer.content.foldl (fun writer element => element.write writer) start
  index : renderer.contentIndex = renderer.content.length
  placeholders : renderer.placeholders = placeholdersOf renderer.content
  listed : ∀ element ∈ renderer.content, element.Listed renderer.lists

/-- What the operations do. -/
structure Goes (start : JsonWriter) (renderer renderer' : GdocsRenderer) : Prop where
  base : renderer.toRendererBase.Goes renderer'.toRendererBase
  lists : Grows renderer.lists renderer'.lists
  sound : Sound start renderer → Sound start renderer'

variable {start : JsonWriter} {renderer : GdocsRenderer}

theorem Goes.refl (renderer : GdocsRenderer) :
  Goes start renderer renderer
  := ⟨.refl _, fun _ _ => id, id⟩

theorem Goes.trans (renderer renderer' renderer'' : GdocsRenderer)
    (h : Goes start renderer renderer') (h' : Goes start renderer' renderer'') :
  Goes start renderer renderer''
  := ⟨h.base.trans h'.base, fun list level => h'.lists list level ∘ h.lists list level,
    h'.sound ∘ h.sound⟩

theorem goes_base {base : RendererBase} (h : renderer.toRendererBase.Goes base) :
  Goes start renderer { renderer with toRendererBase := base }
  := ⟨h, fun _ _ => id, fun hsound => ⟨hsound.1, hsound.2, hsound.3, hsound.4⟩⟩

theorem goes_consume (ref : String) :
  Goes start renderer (renderer.consume ref)
  := goes_base (RendererBase.goes_consume ref _)

theorem Sound.addElement (h : Sound start renderer) {element : Element}
    (hlisted : element.Listed renderer.lists) {placeholders : List Placeholder}
    (hplaceholders : placeholders = placeholdersOf (renderer.content ++ [element])) :
  Sound start ({ renderer with placeholders }.addElement element)
  := by
  constructor
  case writer =>
    change element.write renderer.writer = _
    rw [h.writer]
    exact (foldl_concat (fun writer element => Element.write element writer) start element
      renderer.content).symm
  case index =>
    change renderer.contentIndex + 1 = (renderer.content ++ [element]).length
    rw [h.index, length_append]
    rfl
  case placeholders => exact hplaceholders
  case listed =>
    intro other hother
    obtain hother | hother := mem_append.mp hother
    · exact h.listed other hother
    · obtain rfl := mem_singleton.mp hother
      exact hlisted

/-- An element that is no picture leaves the placeholders as they are. -/
theorem goes_addElement {element : Element} (hlisted : element.Listed renderer.lists)
    (hpicture : ∀ picture caption, element ≠ .picture picture caption) :
  Goes start renderer (renderer.addElement element)
  := by
  refine ⟨.refl _, fun _ _ => id, ?_⟩
  intro hsound
  apply hsound.addElement hlisted
  rw [hsound.placeholders, placeholdersOf_concat]
  cases element with
  | paragraph written => simp
  | picture picture caption => exact absurd rfl (hpicture picture caption)
  | table grid => simp

theorem goes_addParagraph {paragraph : Paragraph}
    (h : ∀ bullet, paragraph.bullet = some bullet →
      Declares renderer.lists bullet.list bullet.nestingLevel) :
  Goes start renderer (renderer.addParagraph paragraph)
  := by
  apply goes_addElement
  · rintro written bullet ⟨⟩ hbullet
    exact h bullet hbullet
  · intro picture caption
    exact Element.noConfusion

/-- A paragraph without a bullet. -/
theorem goes_addPlain {paragraph : Paragraph} (h : paragraph.bullet = none) :
  Goes start renderer (renderer.addParagraph paragraph)
  := by
  apply goes_addParagraph
  intro bullet hbullet
  rw [h] at hbullet
  cases hbullet

theorem goes_addTable (grid : Grid) :
  Goes start renderer (renderer.addElement (.table grid))
  := by
  apply goes_addElement
  · intro written bullet hwritten
    cases hwritten
  · intro picture caption
    exact Element.noConfusion

theorem goes_openList (enumerated : Bool) :
  Goes start renderer (renderer.openList enumerated).2
  := by
  have hgrows := grows_append renderer.lists [[enumerated]]
  refine ⟨.refl _, hgrows, ?_⟩
  intro h
  refine ⟨h.writer, h.index, h.placeholders, ?_⟩
  intro element helement written bullet hwritten hbullet
  exact hgrows _ _ (h.listed element helement written bullet hwritten hbullet)

theorem goes_recordLevel (list level : ℕ) (enumerated : Bool) :
  Goes start renderer (renderer.recordLevel list level enumerated)
  := by
  have hgrows : Grows renderer.lists (renderer.recordLevel list level enumerated).lists := by
    apply grows_modify
    intro levels
    rw [length_append]
    exact Nat.le_add_right _ _
  refine ⟨.refl _, hgrows, ?_⟩
  intro h
  refine ⟨h.writer, h.index, h.placeholders, ?_⟩
  intro element helement written bullet hwritten hbullet
  exact hgrows _ _ (h.listed element helement written bullet hwritten hbullet)

/-! ### Items -/

variable {document : Document}

theorem goes_renderListItem (text : Text) (enumerated : Bool) :
  Goes start renderer (renderer.renderListItem text enumerated)
  := by
  apply Goes.trans _ _ _ (goes_openList enumerated)
  apply goes_addParagraph
  rintro bullet ⟨⟩
  exact declares_openList renderer.lists enumerated

theorem goes_renderText (item : BaseTextItem) :
  Goes start renderer (renderer.renderText item)
  := by
  rw [renderText.eq_def]
  split
  · split
    · exact .refl _
    · exact goes_addPlain rfl
  split
  · exact .refl _
  split
  · exact .refl _
  split
  case h_5 => exact goes_renderListItem _ _
  case h_4 =>
    split
    · exact .refl _
    · exact goes_addPlain rfl
  case h_6 =>
    split
    · exact .refl _
    · exact goes_addPlain rfl
  all_goals exact goes_addPlain rfl

theorem subset_addRun (document : Document) (state : Text × Finset String) (child : String) :
  state.2 ⊆ (addRun document state child).2
  := by
  rw [addRun]
  have hinsert := Finset.subset_insert child state.2
  split
  · exact Finset.Subset.refl _
  split
  · exact Finset.Subset.refl _
  split
  · exact hinsert
  · exact hinsert
  · exact hinsert

theorem subset_inlineText (document : Document) (children : List String)
    (consumed : Finset String) :
  consumed ⊆ (inlineText document children consumed).2
  := by
  have hloop (state : Text × Finset String) :
      state.2 ⊆ (children.foldl (addRun document) state).2 := by
    induction children generalizing state with
    | nil => exact Finset.Subset.refl _
    | cons child children ih => exact (subset_addRun document state child).trans (ih _)
  exact hloop ([], consumed)

theorem goes_addInlineParagraph (group : GroupItem) :
  Goes start renderer (renderer.addInlineParagraph document group)
  := by
  have hclaimed : Goes start renderer { renderer with
      consumed := (inlineText document group.children renderer.consumed).2 } :=
    goes_base ⟨subset_inlineText document group.children renderer.consumed, id⟩
  rw [addInlineParagraph]
  dsimp only
  split
  · exact hclaimed
  · exact .trans _ _ _ hclaimed (goes_addPlain rfl)

theorem goes_renderTable (table : TableItem) :
  Goes start renderer (renderer.renderTable document table)
  := by
  rw [renderTable]
  split
  · exact .refl _
  have hclaimed := RendererBase.goes_captionTexts document table.captions renderer.toRendererBase
  generalize renderer.toRendererBase.captionTexts document table.captions = claimed at hclaimed ⊢
  obtain ⟨captions, base⟩ := claimed
  have hbase := hclaimed.trans (RendererBase.goes_tableGrid table.data base)
  dsimp only
  generalize base.tableGrid table.data = rendered at hbase ⊢
  obtain ⟨grid, base'⟩ := rendered
  have hcaption (caption : Text) : Goes start renderer
      (if caption.isEmpty then { renderer with toRendererBase := base' }
        else { renderer with toRendererBase := base' }.addParagraph (.prose caption)) := by
    split
    · exact goes_base hbase
    · exact .trans _ _ _ (goes_base hbase) (goes_addPlain rfl)
  dsimp only
  split
  · exact hcaption _
  · exact .trans _ _ _ (hcaption _) (goes_addTable grid)

theorem goes_renderPicture (picture : PictureItem) :
  Goes start renderer (renderer.renderPicture document picture)
  := by
  rw [renderPicture]
  split
  · exact .refl _
  have hclaimed := RendererBase.goes_captionTexts document picture.captions renderer.toRendererBase
  refine .trans _ _ _ (goes_base hclaimed) ⟨.refl _, fun _ _ => id, ?_⟩
  intro hsound
  apply hsound.addElement
  · intro written bullet hwritten
    cases hwritten
  · dsimp only
    rw [placeholdersOf_concat, hsound.placeholders]
    exact congrArg (fun index => _ ++ [placeholderOf picture index]) hsound.index

/-! ### The walk ends -/

theorem leads_renderList {fuel : ℕ} {index : ℕ} {group : GroupItem} {list level : ℕ}
    (hgroup : document.groups[index]? = some group) (hfuel : document.leftOf renderer.consumed < fuel)
    (hlist : Declares renderer.lists list 0) :
  Leads (Goes start) renderer (renderList document fuel group list level renderer)
  := by
  induction fuel generalizing index group level renderer with
  | zero => omega
  | succ fuel ih =>
    rw [renderList]
    have hrecorded : Goes start renderer
        (renderer.recordLevel list level (numbersItems document group)) :=
      goes_recordLevel list level _
    have hlevel := declares_recordLevel hlist level (numbersItems document group)
    refine Leads.mono (R := Goes start) ?_ fun s' => hrecorded.trans _ _ _
    apply Leads.foldlM Goes.refl Goes.trans
    intro child hchild renderer' hgoes
    rw [renderListChild]
    cases hnested : document.groupAt child with
    | some nested =>
      dsimp only
      split
      case isFalse => exact .some (.refl _)
      case isTrue hopen =>
        obtain ⟨index', hindex'⟩ := exists_of_groupAt hnested
        have hless := leftOf_insert_lt
          (mem_references_of_group hgroup hchild) hopen.2.2
        have hle := @leftOf_le document _ _ hgoes.base.consumed
        have hopened : Declares renderer'.lists list 0 := by
          obtain ⟨levels, hlevels, hlt⟩ := hgoes.lists _ _ hlevel
          exact ⟨levels, hlevels, (Nat.zero_le _).trans_lt hlt⟩
        have hnext : document.leftOf (renderer'.consume child).consumed < fuel :=
          hless.trans_le (hle.trans (Nat.le_of_lt_succ hfuel))
        exact (ih hindex' hnext hopened).mono fun s' => (goes_consume child).trans _ _ _
    | none =>
      dsimp only
      split
      · exact .some (.refl _)
      split
      · exact .some (.refl _)
      split
      · exact .some (goes_consume child)
      split
      · exact .some (goes_consume child)
      · refine .some (.trans _ _ _ (goes_consume child) (goes_addParagraph ?_))
        rintro bullet ⟨⟩
        exact hgoes.lists _ _ hlevel

theorem leads_renderGroup {render : GdocsRenderer → String → Option GdocsRenderer} {index : ℕ}
    {group : GroupItem} (hgroup : document.groups[index]? = some group)
    (hrender : ∀ child ∈ group.children, ∀ renderer', Goes start renderer renderer' →
      Leads (Goes start) renderer' (render renderer' child)) :
  Leads (Goes start) renderer (renderer.renderGroup document render group)
  := by
  rw [renderGroup]
  split
  · exact .some (.refl _)
  split
  · have hopened : Goes start renderer (renderer.openList (numbersItems document group)).2 :=
      goes_openList _
    refine Leads.mono (R := Goes start) ?_ fun s' => hopened.trans _ _ _
    apply leads_renderList hgroup (document.leftOf_lt_reach _)
    exact declares_openList renderer.lists _
  split
  · exact .some (goes_addInlineParagraph group)
  · exact Leads.foldlM Goes.refl Goes.trans hrender

theorem leads_renderRef {fuel : ℕ} {raw : String} (hraw : raw ∈ document.references)
    (hfuel : document.leftOf renderer.consumed < fuel) :
  Leads (Goes start) renderer (renderRef document fuel renderer raw)
  := by
  induction fuel generalizing raw renderer with
  | zero => omega
  | succ fuel ih =>
    rw [renderRef]
    split
    case isTrue => exact .some (.refl _)
    case isFalse hfresh =>
      have hconsumed : Goes start renderer (renderer.consume raw) := goes_consume raw
      have hnext : document.leftOf (renderer.consume raw).consumed < fuel :=
        (leftOf_insert_lt hraw hfresh).trans_le (Nat.le_of_lt_succ hfuel)
      have hchildren {children : List String} (h : ∀ child ∈ children, child ∈ document.references) :
          ∀ child ∈ children, ∀ renderer', Goes start (renderer.consume raw) renderer' →
            Leads (Goes start) renderer' (renderRef document fuel renderer' child) := by
        intro child hchild renderer' hgoes
        exact ih (h child hchild) ((leftOf_le hgoes.base.consumed).trans_lt hnext)
      refine Leads.mono (R := Goes start) ?_ fun s' => hconsumed.trans _ _ _
      dsimp only
      split
      case h_1 index _ =>
        cases document.texts[index]? with
        | none => exact .some (.refl _)
        | some item => exact .some (goes_renderText item)
      case h_2 index _ =>
        cases document.tables[index]? with
        | none => exact .some (.refl _)
        | some table => exact .some (goes_renderTable table)
      case h_3 index _ =>
        cases document.pictures[index]? with
        | none => exact .some (.refl _)
        | some picture => exact .some (goes_renderPicture picture)
      case h_4 index _ =>
        cases hgroup : document.groups[index]? with
        | none => exact .some (.refl _)
        | some group =>
          exact leads_renderGroup hgroup
            (hchildren fun _ => mem_references_of_group hgroup)
      case h_5 index _ =>
        cases hregion : document.fieldRegions[index]? with
        | none => exact .some (.refl _)
        | some children =>
          exact Leads.foldlM Goes.refl Goes.trans
            (hchildren fun _ => mem_references_of_fieldRegion hregion)
      case h_6 index _ =>
        cases hitem : document.fieldItems[index]? with
        | none => exact .some (.refl _)
        | some children =>
          exact Leads.foldlM Goes.refl Goes.trans
            (hchildren fun _ => mem_references_of_fieldItem hitem)
      all_goals exact .some (.refl _)

end GdocsRenderer

theorem leads_walkBody (document : Document) (title : Text) :
  Leads (GdocsRenderer.Goes (openContent title {})) { writer := openContent title {} }
    (walkBody document title)
  := by
  apply Leads.foldlM GdocsRenderer.Goes.refl GdocsRenderer.Goes.trans
  intro child hchild renderer _
  exact GdocsRenderer.leads_renderRef (mem_references_of_body hchild)
    (document.leftOf_lt_reach _)

/-- The walk over the body ends, with a sound renderer that tells whether a table overflowed. -/
theorem exists_walkBody (document : Document) (title : Text) :
  ∃ renderer, walkBody document title = some renderer ∧ renderer.toRendererBase.Tells ∧
    renderer.Sound (openContent title {})
  := by
  obtain ⟨renderer, hrenderer, hgoes⟩ := leads_walkBody document title
  refine ⟨renderer, hrenderer, hgoes.base.tells ?_, hgoes.sound ?_⟩
  · simp [RendererBase.Tells]
  · exact ⟨rfl, rfl, rfl, fun _ h => by cases h⟩

/-! ### The title -/

theorem exists_findTitleChild {document : Document}
    {find : GroupItem → Finset String → Option (Option Text × Finset String)}
    {children : List String} (hchildren : ∀ child ∈ children, child ∈ document.references)
    {seen : Finset String}
    (hfind : ∀ (nested : GroupItem) (index : ℕ), document.groups[index]? = some nested →
      ∀ seen', document.leftOf seen' < document.leftOf seen →
        ∃ found, find nested seen' = some found ∧ seen' ⊆ found.2) :
  ∃ found, findTitleChild document find children seen = some found ∧ seen ⊆ found.2
  := by
  induction children generalizing seen with
  | nil => exact ⟨(none, seen), rfl, Finset.Subset.refl _⟩
  | cons child children ih =>
    obtain ⟨hchild, hchildren⟩ := forall_mem_cons.mp hchildren
    rw [findTitleChild]
    split
    case isTrue => exact ih hchildren hfind
    case isFalse hfresh =>
      have hless := leftOf_insert_lt hchild hfresh
      have hinsert := Finset.subset_insert child seen
      have hrest (seen' : Finset String) (hsub : insert child seen ⊆ seen') :
          ∃ found, findTitleChild document find children seen' = some found ∧ seen ⊆ found.2 := by
        have hle := @leftOf_le document _ _ hsub
        obtain ⟨found, hfound, hsubset⟩ := @ih hchildren seen' fun nested index hnested seen'' hlt =>
          hfind nested index hnested seen'' (hlt.trans_le (hle.trans hless.le))
        exact ⟨found, hfound, (hinsert.trans hsub).trans hsubset⟩
      have hskip := hrest _ (Finset.Subset.refl _)
      dsimp only
      split
      · split
        · exact hskip
        · exact ⟨_, rfl, hinsert⟩
      · exact hskip
      split
      · exact hskip
      split
      · exact hskip
      · rename_i nested hnested _
        obtain ⟨index, hindex⟩ := exists_of_groupAt hnested
        obtain ⟨⟨title, seen'⟩, hfound, hsubset⟩ := hfind nested index hindex _ hless
        rw [hfound]
        cases title with
        | some title => exact ⟨_, rfl, hinsert.trans hsubset⟩
        | none => exact hrest seen' hsubset

theorem exists_findTitle {document : Document} {fuel : ℕ} {group : GroupItem}
    (hgroup : ∀ child ∈ group.children, child ∈ document.references) {seen : Finset String}
    (hfuel : document.leftOf seen < fuel) :
  ∃ found, findTitle document fuel group seen = some found ∧ seen ⊆ found.2
  := by
  induction fuel generalizing group seen with
  | zero => omega
  | succ fuel ih =>
    apply exists_findTitleChild hgroup
    intro nested index hindex seen' hless
    apply ih
    · exact fun _ => mem_references_of_group hindex
    · omega

theorem exists_documentTitle (document : Document) :
  ∃ title, documentTitle document = some title
  := by
  obtain ⟨found, hfound, -⟩ := @exists_findTitle document document.reach document.body
    (fun _ => mem_references_of_body) ∅ (document.leftOf_lt_reach ∅)
  exact ⟨_, by rw [documentTitle, hfound]; rfl⟩

/-! ### Runs -/

/-- A text ends with a line feed, its only one. -/
def EndsLine (points : List ℕ) : Prop :=
  ∃ before, points = before ++ [0x0a] ∧ 0x0a ∉ before

theorem sequenceValue_ascii {lead : UInt8} {rest : List UInt8} {value : ℕ}
    (h : sequenceValue lead rest = some value) (hvalue : value < 0x80) :
  lead = .ofNat value
  := by
  by_cases hlead : lead < 0x80
  · have hlt : lead.toNat < 128 := hlead
    have hascii : sequenceValue lead rest = some lead.toNat := by
      simp [sequenceValue, sequenceLength, hlead, leadBits, malformed]
      omega
    rw [hascii] at h
    rw [← Option.some.inj h, UInt8.ofNat_toNat]
  · have hlength : sequenceLength lead = 0 ∨ sequenceLength lead = 2 ∨ sequenceLength lead = 3 ∨
        sequenceLength lead = 4 := by
      rw [sequenceLength, if_neg hlead]
      split
      · simp
      split
      · simp
      split
      · simp
      · simp
    rw [sequenceValue] at h
    dsimp only at h
    split at h
    · cases h
    split at h
    · cases h
    · rename_i hlong hwell
      rw [Option.some.inj h] at hwell
      simp only [malformed, Bool.or_eq_true, Bool.and_eq_true, decide_eq_true_eq, not_or] at hwell
      omega

/-- A character below 128 is decoded from its own byte. -/
theorem mem_of_mem_decodeFrom {text : List UInt8} {skip point : ℕ} (h : point ∈ decodeFrom skip text)
    (hpoint : point < 0x80) :
  UInt8.ofNat point ∈ text
  := by
  induction text generalizing skip with
  | nil => cases skip <;> simp [decodeFrom] at h
  | cons lead rest ih =>
    cases skip with
    | succ skip => exact mem_cons_of_mem _ (ih h)
    | zero =>
      rw [decodeFrom] at h
      split at h
      · rename_i value hvalue
        obtain rfl | h := mem_cons.mp h
        · rw [sequenceValue_ascii hvalue hpoint]
          exact mem_cons_self
        · exact mem_cons_of_mem _ (ih h)
      · obtain rfl | h := mem_cons.mp h
        · exact absurd hpoint (by decide)
        · exact mem_cons_of_mem _ (ih h)

/-- However a text is decoded, its run ends with the one line feed that is put behind it. -/
theorem endsLine_runContent (text : Text) :
  EndsLine (decodeUtf8 (gdocsRunContent text))
  := by
  refine ⟨decodeUtf8 ((text.filter (· ≠ 0x0d)).map fun c => if c = 0x0a then 0x0b else c), ?_, ?_⟩
  · rw [gdocsRunContent, decodeUtf8_append]
    · rfl
    · intro next hnext
      obtain rfl := Option.some.inj hnext
      decide
  · intro hmem
    have hbyte := mem_of_mem_decodeFrom hmem (by decide)
    obtain ⟨c, -, hc⟩ := mem_map.mp hbyte
    split at hc
    · exact absurd hc (by decide)
    · rename_i hne
      exact hne hc

/-! ### The payload -/

/-- The paragraphs of an element, with those in the cells of a table. -/
def Element.paragraphs : Element → List Paragraph
  | .paragraph written => [written]
  | .picture _ caption => [.prose caption]
  | .table grid => (emittedCells grid).flatten.map cellParagraph

/-- The payload points to itself: a placeholder for each picture of the content, in order, with the
place of its paragraph; a declared level of a list for each bullet, under a name that no other list
has; and one line feed in each run, at its end. -/
structure Payload.Consistent (payload : Payload) : Prop where
  placeholders : payload.placeholders = placeholdersOf payload.content
  bullets : ∀ written bullet, .paragraph written ∈ payload.content →
    written.bullet = some bullet → Declares payload.lists bullet.list bullet.nestingLevel
  names : ((payload.lists.zipIdx.map listMember).map Prod.fst).Nodup
  runs : ∀ element ∈ payload.content, ∀ paragraph ∈ element.paragraphs,
    EndsLine (decodeUtf8 (gdocsRunContent paragraph.text))

theorem decodeUtf8_of_ascii {text : List UInt8} (h : ∀ byte ∈ text, byte < 0x80) :
  decodeUtf8 text = text.map UInt8.toNat
  := by
  induction text with
  | nil => rfl
  | cons byte text ih =>
    obtain ⟨hbyte, htext⟩ := forall_mem_cons.mp h
    rw [decodeUtf8_ascii hbyte, ih htext]
    rfl

/-- Two lists do not have one name. -/
theorem decode_gdocsListId_injective :
  Function.Injective fun index => decodeUtf8 (gdocsListId index)
  := by
  have hascii (index : ℕ) : ∀ byte ∈ gdocsListId index, byte < 0x80 := by
    intro byte hbyte
    obtain hbyte | hbyte := mem_append.mp hbyte
    · have hname : (bytes "kix.list").all (· < 0x80) = true := by decide
      exact of_decide_eq_true (all_eq_true.mp hname byte hbyte)
    · have hdigit := all_eq_true.mp (decimal_spec index).1 byte hbyte
      rw [isDigit, Bool.and_eq_true, decide_eq_true_eq, decide_eq_true_eq] at hdigit
      exact UInt8.lt_of_le_of_lt hdigit.2 (by decide)
  intro index index' h
  dsimp only at h
  rw [decodeUtf8_of_ascii (hascii index), decodeUtf8_of_ascii (hascii index')] at h
  have hbytes := map_injective_iff.mpr (fun _ _ => UInt8.toNat_inj.mp) h
  have hdigits := append_cancel_left hbytes
  rw [← (decimal_spec index).2.1, hdigits, (decimal_spec index').2.1]

theorem nodup_listMember (lists : List (List Bool)) :
  ((lists.zipIdx.map listMember).map Prod.fst).Nodup
  := by
  have hnames : (lists.zipIdx.map listMember).map Prod.fst =
      (range lists.length).map fun index => decodeUtf8 (gdocsListId index) := by
    rw [range_eq_range', ← zipIdx_map_snd 0 lists, map_map, map_map]
    rfl
  rw [hnames]
  exact nodup_range.map decode_gdocsListId_injective

/-- What a finished walk says behind a title. -/
def payloadOf (title : Text) (renderer : GdocsRenderer) : Payload where
  title := title
  content := renderer.content
  lists := renderer.lists
  placeholders := renderer.placeholders

theorem GdocsRenderer.Sound.consistent {start : JsonWriter} {renderer : GdocsRenderer}
    (h : renderer.Sound start) (title : Text) :
  (payloadOf title renderer).Consistent
  := by
  constructor
  case placeholders => exact h.placeholders
  case bullets =>
    intro written bullet hwritten hbullet
    exact h.listed _ hwritten written bullet rfl hbullet
  case names => exact nodup_listMember renderer.lists
  case runs => exact fun _ _ paragraph _ => endsLine_runContent paragraph.text

/-- A sound walk has written its payload. -/
theorem GdocsRenderer.Sound.read_out {toChars : ℚ → List UInt8} (htoChars : SpellsDigits toChars)
    {title : Text} {renderer : GdocsRenderer} (h : renderer.Sound (openContent title {}))
    (hfinite : ∀ placeholder ∈ renderer.placeholders,
      Finite placeholder.width ∧ Finite placeholder.height) :
  Json.read (closeContent toChars renderer renderer.writer).out =
    some ((payloadOf title renderer).value toChars)
  := by
  have hcontent : WritesElements (renderer.content.map Element.value) (fun writer =>
      renderer.content.foldl (fun writer element => element.write writer) writer) :=
    writesElements_foldl fun element _ => writes_element element
  have hbody := (hcontent.array.member (bytes "content")).object.member (bytes "body")
  have hmembers := (((writes_memberString "title" title).append hbody).append
    (writes_lists renderer.lists)).append (writes_placeholders htoChars hfinite)
  have hread := hmembers.object.read_out
  rw [h.writer]
  exact hread

/-- The export ends over any document, with a payload that is consistent with itself.  Where no table
that was rendered overflows there is an output; and where the sizes of its pictures are numbers, it is
JSON that is read to the payload. -/
theorem renderGdocsJson_consistent (toChars : ℚ → List UInt8) (document : Document) :
  ∃ title renderer, documentTitle document = some title ∧
    walkBody document title = some renderer ∧ (payloadOf title renderer).Consistent ∧
    ((∀ data ∈ renderer.tables, (Job.mk data false).Fits) →
      ∃ out, renderGdocsJson toChars document = some out ∧
        (SpellsDigits toChars →
          (∀ placeholder ∈ renderer.placeholders,
            Finite placeholder.width ∧ Finite placeholder.height) →
          Json.read out = some ((payloadOf title renderer).value toChars)))
  := by
  obtain ⟨title, htitle⟩ := exists_documentTitle document
  obtain ⟨renderer, hrenderer, htells, hsound⟩ := exists_walkBody document title
  refine ⟨title, renderer, htitle, hrenderer, hsound.consistent title, ?_⟩
  intro hfits
  refine ⟨(closeContent toChars renderer renderer.writer).out, ?_, ?_⟩
  · have hdefined : ¬ renderer.overflowed = true := by
      intro hoverflowed
      obtain ⟨data, hdata, hnot⟩ := htells.mp hoverflowed
      exact hnot (hfits data hdata)
    simp [renderGdocsJson, htitle, hrenderer, hdefined]
  · exact fun htoChars hfinite => hsound.read_out htoChars hfinite

/-- One picture of a width. -/
def pictureOf (width : Double) : Document where
  body := { children := ["#/pictures/0"] }
  pictures := [{ selfRef := bytes "#/pictures/0", image := some { width } }]

theorem walkBody_pictureOf (width : Double) (title : Text) :
  (walkBody (pictureOf width) title).map (fun walked => (walked.tables, walked.placeholders)) =
    some ([], [placeholderOf { selfRef := bytes "#/pictures/0", image := some { width } } 0])
  := rfl

theorem renderGdocsJson_consistent_pictureOf :
  ∃ (out : Text) (payload : Payload),
    renderGdocsJson (fun _ => threeHalves.text) (pictureOf (.finite (3 / 2) (by norm_num))) =
      some out ∧
    payload.Consistent ∧ payload.placeholders.length = 1 ∧
    Json.read out = some (payload.value fun _ => threeHalves.text)
  := by
  obtain ⟨title, renderer, -, hwalk, hconsistent, hout⟩ := renderGdocsJson_consistent
    (fun _ => threeHalves.text) (pictureOf (.finite (3 / 2) (by norm_num)))
  have hwalked := walkBody_pictureOf (.finite (3 / 2) (by norm_num)) title
  rw [hwalk] at hwalked
  obtain ⟨htables, hplaceholders⟩ := Prod.mk.inj (Option.some.inj hwalked)
  obtain ⟨out, hrender, hread⟩ := hout (by rw [htables]; exact nofun)
  refine ⟨out, payloadOf title renderer, hrender, hconsistent, ?_, hread ?_ ?_⟩
  · exact congrArg List.length hplaceholders
  · exact fun _ _ => ⟨threeHalves, rfl⟩
  · rw [hplaceholders]
    intro placeholder hplaceholder
    obtain rfl := List.mem_singleton.mp hplaceholder
    exact ⟨trivial, trivial⟩

/-- The width of a picture that is no number is printed by a word that JSON does not have. -/
theorem renderGdocsJson_nan :
  ∃ out, renderGdocsJson (fun _ => threeHalves.text) (pictureOf .nan) = some out ∧
    Json.parse out = none
  := by
  refine ⟨_, rfl, ?_⟩
  decide +kernel

end GRParse.Export
