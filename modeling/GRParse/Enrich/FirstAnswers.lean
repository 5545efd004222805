import GRParse.Enrich.AnswerRuns

/-!
# First answers

What one call does to the chart, the description and the code of a picture: it leaves what is there, and
writes its answer where there is none.
-/

namespace GRParse.Enrich

open List Enrich.PictureItem Call

/-! ### What a picture has -/

def PictureAnnotation.description? : PictureAnnotation → Option (String × String × String)
  | .description kind text provenance => some (kind, text, provenance)
  | _ => none

/-- The charts among the annotations. -/
def PictureItem.tabularCharts (picture : PictureItem) : List PictureTabularChartData :=
  picture.annotations.filterMap PictureAnnotation.tabularChart?

/-- The descriptions among the annotations. -/
def PictureItem.descriptions (picture : PictureItem) : List (String × String × String) :=
  picture.annotations.filterMap PictureAnnotation.description?

/-- The chart of the meta fields. -/
def PictureItem.chartField (picture : PictureItem) : Option TabularChartMetaField :=
  picture.getMeta.tabularChart

theorem hasTabularChart_iff (picture : PictureItem) :
  hasTabularChart picture = true ↔ picture.tabularCharts ≠ []
  := by
  rw [hasTabularChart, any_eq_true, tabularCharts, ne_eq,
    filterMap_eq_nil_iff]
  simp only [Option.isSome_iff_ne_none]
  grind

/-! ### What a call offers -/

/-- The chart of a call, as an annotation and as a meta field. -/
def Call.chart? (call : Call) : Option (PictureTabularChartData × TabularChartMetaField) :=
  match call.answer with
  | .chart title table =>
    some
      (⟨"tabular_chart_data", title, normalizedTable table⟩,
        { createdBy := setText call.annotation.model none
          title := setText title none
          chartData := normalizedTable table })
  | _ => none

/-- The description of a call: its text, and the model its note names. -/
def Call.description? (call : Call) : Option (String × String) :=
  match call.answer with
  | .description text provenance _ => some (text, provenance)
  | _ => none

/-- The code of a call. -/
def Call.code? (call : Call) : Option String :=
  match call.answer with
  | .chartCode text _ _ => some text
  | _ => none

/-! ### What a call does -/

theorem answered_tabularCharts (picture : PictureItem) (call : Call) :
  (Call.answered picture call).tabularCharts =
    if picture.tabularCharts = [] then (call.chart?.map Prod.fst).toList else picture.tabularCharts
  := by
  have hif : (if picture.tabularCharts = [] then [] else picture.tabularCharts) =
      picture.tabularCharts := by
    split <;> simp_all
  rw [answered, writePicture, chart?]
  cases call.answer with
  | chart title table =>
    dsimp only
    rw [writeChartTable]
    by_cases hchart : hasTabularChart picture = true
    · rw [if_pos hchart, if_neg ((hasTabularChart_iff picture).mp hchart)]
      rfl
    · have hnil : picture.tabularCharts = [] := by
        by_contra hne
        exact hchart ((hasTabularChart_iff picture).mpr hne)
      rw [if_neg hchart, if_pos hnil]
      rw [tabularCharts] at hnil
      simp [tabularCharts, hnil, PictureAnnotation.tabularChart?]
  | description text provenance nonempty =>
    dsimp only
    rw [writeDescription, Option.map_none, Option.toList_none, hif]
    split
    · rfl
    · simp [tabularCharts, PictureAnnotation.tabularChart?]
  | chartCode text language nonempty =>
    dsimp only
    rw [writeChartCode, Option.map_none, Option.toList_none, hif]
    split
    · rfl
    · simp [tabularCharts]
  | _ => simp [hif]

variable {picture : PictureItem} {call : Call}

/-- The chart of the meta fields stays, unless a chart is written. -/
theorem answered_chartField_of_kept (h : picture.tabularCharts ≠ [] ∨ call.chart? = none) :
  (Call.answered picture call).chartField = picture.chartField
  := by
  rw [chart?] at h
  rw [answered, writePicture]
  cases hanswer : call.answer with
  | chart title table =>
    rw [hanswer] at h
    have hchart : hasTabularChart picture = true :=
      (hasTabularChart_iff picture).mpr (h.resolve_right (by simp))
    dsimp only
    rw [writeChartTable, if_pos hchart]
    rfl
  | description text provenance nonempty =>
    dsimp only
    rw [writeDescription]
    split
    · rfl
    · simp [chartField, getMeta]
  | chartCode text language nonempty =>
    dsimp only
    rw [writeChartCode]
    split
    · rfl
    · simp [chartField, getMeta]
  | _ => rfl

theorem answered_chartField_of_chart {chart : PictureTabularChartData × TabularChartMetaField}
    (hcall : call.chart? = some chart) (hcharts : picture.tabularCharts = [])
    (hfield : picture.chartField = none) :
  (Call.answered picture call).chartField = some chart.2
  := by
  rw [chart?] at hcall
  rw [answered, writePicture]
  cases hanswer : call.answer with
  | chart title table =>
    rw [hanswer] at hcall
    obtain rfl := Option.some.inj hcall
    have hchart : hasTabularChart picture ≠ true :=
      fun h => (hasTabularChart_iff picture).mp h hcharts
    rw [chartField] at hfield
    dsimp only
    rw [writeChartTable, if_neg hchart, hfield]
    simp [chartField, getMeta]
  | _ =>
    rw [hanswer] at hcall
    cases hcall

/-- What a call does to the description of a picture and to the descriptions among its annotations. -/
theorem answered_description (picture : PictureItem) (call : Call) :
  (Call.answered picture call).descriptionText =
      picture.descriptionText.or (call.description?.map Prod.fst) ∧
    (Call.answered picture call).descriptions =
      picture.descriptions ++
        if picture.descriptionText.isSome then []
        else (call.description?.map (fun text => ("description", text))).toList
  := by
  rw [answered, writePicture, description?]
  cases call.answer with
  | chart title table =>
    dsimp only
    rw [writeChartTable]
    split <;>
      simp [descriptionText, getMeta, descriptions,
        PictureAnnotation.description?]
  | description text provenance nonempty =>
    dsimp only
    rw [writeDescription]
    cases htext : picture.descriptionText with
    | some before => simp [htext]
    | none =>
      simp [descriptionText, getMeta, descriptions,
        PictureAnnotation.description?, nonempty]
  | chartCode text language nonempty =>
    dsimp only
    rw [writeChartCode]
    split <;>
      simp [descriptionText, getMeta, descriptions]
  | _ => simp

theorem answered_codeText (picture : PictureItem) (call : Call) :
  (Call.answered picture call).codeText = picture.codeText.or call.code?
  := by
  rw [answered, writePicture, code?]
  cases call.answer with
  | chart title table =>
    dsimp only
    rw [writeChartTable]
    split <;> simp [codeText, getMeta]
  | description text provenance nonempty =>
    dsimp only
    rw [writeDescription]
    split <;> simp [codeText, getMeta]
  | chartCode text language nonempty =>
    dsimp only
    rw [writeChartCode]
    cases htext : picture.codeText with
    | some before => simp [htext]
    | none => simp [codeText, getMeta, nonempty]
  | _ => simp

/-! ### What a run does -/

/-- A picture before a run and after it: it keeps what it had, and otherwise it has the first of what
the calls that name it answer. -/
structure AnsweredOnce (before after : PictureItem) (calls : List Call) : Prop where
  chart_kept : before.tabularCharts ≠ [] ∨ before.chartField ≠ none →
    after.tabularCharts = before.tabularCharts ∧ after.chartField = before.chartField
  chart_first : before.tabularCharts = [] → before.chartField = none →
    after.tabularCharts = ((calls.findSome? Call.chart?).map Prod.fst).toList ∧
      after.chartField = (calls.findSome? Call.chart?).map Prod.snd
  description : after.descriptionText =
    before.descriptionText.or ((calls.findSome? Call.description?).map Prod.fst)
  descriptions : after.descriptions =
    before.descriptions ++
      if before.descriptionText.isSome then []
      else ((calls.findSome? Call.description?).map (fun text => ("description", text))).toList
  code : after.codeText = before.codeText.or (calls.findSome? Call.code?)

theorem foldl_codeText (calls : List Call) (picture : PictureItem) :
  (calls.foldl Call.answered picture).codeText =
    picture.codeText.or (calls.findSome? Call.code?)
  := FirstWins.read_foldl answered_codeText calls picture

theorem foldl_descriptionText (calls : List Call) (picture : PictureItem) :
  (calls.foldl Call.answered picture).descriptionText =
    picture.descriptionText.or ((calls.findSome? Call.description?).map Prod.fst)
  := by
  have hfirst := FirstWins.read_foldl (fun state call => (answered_description state call).1)
    calls picture
  rw [hfirst, map_findSome?]
  rfl

theorem foldl_descriptions (calls : List Call) (picture : PictureItem) :
  (calls.foldl Call.answered picture).descriptions =
    picture.descriptions ++
      if picture.descriptionText.isSome then []
      else ((calls.findSome? Call.description?).map (fun text => ("description", text))).toList
  := by
  induction calls generalizing picture with
  | nil => simp
  | cons call calls ih =>
    obtain ⟨htext, hdescriptions⟩ := answered_description picture call
    rw [foldl_cons, ih, hdescriptions, htext, findSome?_cons]
    cases picture.descriptionText <;> cases call.description? <;> simp

theorem foldl_tabularCharts (calls : List Call) (picture : PictureItem) :
  (calls.foldl Call.answered picture).tabularCharts =
    if picture.tabularCharts = [] then ((calls.findSome? Call.chart?).map Prod.fst).toList
    else picture.tabularCharts
  := by
  induction calls generalizing picture with
  | nil =>
    by_cases hcharts : picture.tabularCharts = [] <;> simp [hcharts]
  | cons call calls ih =>
    rw [foldl_cons, ih, answered_tabularCharts, findSome?_cons]
    by_cases hcharts : picture.tabularCharts = []
    · cases call.chart? <;> simp [hcharts]
    · simp [hcharts]

theorem foldl_chartField_of_kept {calls : List Call}
    (h : picture.tabularCharts ≠ [] ∨ ∀ call ∈ calls, call.chart? = none) :
  (calls.foldl Call.answered picture).chartField = picture.chartField
  := by
  induction calls generalizing picture with
  | nil => rfl
  | cons call calls ih =>
    have hcall : picture.tabularCharts ≠ [] ∨ call.chart? = none :=
      h.imp_right (fun hnone => hnone call mem_cons_self)
    have hrest : (answered picture call).tabularCharts ≠ [] ∨
        ∀ call ∈ calls, call.chart? = none := by
      rcases h with hcharts | hnone
      · left
        rwa [answered_tabularCharts, if_neg hcharts]
      · right
        exact fun other hother => hnone other (mem_cons_of_mem _ hother)
    rw [foldl_cons, ih hrest, answered_chartField_of_kept hcall]

theorem foldl_chartField_of_none {calls : List Call} (hcharts : picture.tabularCharts = [])
    (hfield : picture.chartField = none) :
  (calls.foldl Call.answered picture).chartField = (calls.findSome? Call.chart?).map Prod.snd
  := by
  induction calls generalizing picture with
  | nil => exact hfield
  | cons call calls ih =>
    rw [foldl_cons, findSome?_cons]
    cases hcall : call.chart? with
    | none =>
      have hafter := answered_tabularCharts picture call
      rw [if_pos hcharts, hcall] at hafter
      apply ih hafter
      rw [answered_chartField_of_kept (Or.inr hcall), hfield]
    | some chart =>
      have hafter : (answered picture call).tabularCharts ≠ [] := by
        rw [answered_tabularCharts, if_pos hcharts, hcall]
        simp
      rw [foldl_chartField_of_kept (Or.inl hafter),
        answered_chartField_of_chart hcall hcharts hfield]
      rfl

/-- A picture is answered once if it has a chart in its meta fields alone only when no call has one
for it. -/
theorem answeredOnce_iff (calls : List Call) (picture : PictureItem) :
  AnsweredOnce picture (calls.foldl Call.answered picture) calls ↔
    ∀ call ∈ calls, call.chart?.isSome → picture.chartField ≠ none → picture.tabularCharts ≠ []
  := by
  constructor
  · rintro honce call hcall hchart hfield hcharts
    have hkept := (honce.chart_kept (Or.inr hfield)).1
    rw [foldl_tabularCharts, if_pos hcharts, hcharts] at hkept
    have hnone : calls.findSome? chart? = none := by simpa using hkept
    rw [findSome?_eq_none_iff.mp hnone call hcall] at hchart
    cases hchart
  · intro h
    constructor
    case description => exact foldl_descriptionText calls picture
    case descriptions => exact foldl_descriptions calls picture
    case code => exact foldl_codeText calls picture
    case chart_first =>
      intro hcharts hfield
      rw [foldl_tabularCharts, if_pos hcharts]
      exact ⟨rfl, foldl_chartField_of_none hcharts hfield⟩
    case chart_kept =>
      intro hchart
      by_cases hcharts : picture.tabularCharts = []
      · have hfield : picture.chartField ≠ none := hchart.resolve_left (fun hne => hne hcharts)
        have hnone : ∀ call ∈ calls, call.chart? = none := by
          intro call hcall
          by_contra hsome
          exact h call hcall (Option.isSome_iff_ne_none.mpr hsome) hfield hcharts
        rw [foldl_tabularCharts, if_pos hcharts, findSome?_eq_none_iff.mpr hnone, hcharts]
        exact ⟨rfl, foldl_chartField_of_kept (Or.inr hnone)⟩
      · rw [foldl_tabularCharts, if_neg hcharts]
        exact ⟨rfl, foldl_chartField_of_kept (Or.inl hcharts)⟩

/-! ### The item that is written -/

/-- A reference names an item: by its name, or by its place if it has none. -/
def NamedBy (selfRef start name : String) (index : ℕ) : Prop :=
  (name ≠ "" ∧ name = selfRef) ∨ (name = "" ∧ arenaIndex selfRef start = some index)

/-- A document and what a call makes of it: one item is changed, and the reference names it. -/
inductive ChangesNamed (call : Call) (document : Document) : Document → Prop where
  | picture {index : ℕ} {picture after : PictureItem}
      (hpicture : document.pictures[index]? = some picture)
      (hname : NamedBy call.annotation.selfRef kPictures picture.selfRef index)
      (hwrite : call.writePicture picture = some after) :
      ChangesNamed call document
        { document with pictures := document.pictures.set index after }
  | text {index : ℕ} {item after : BaseTextItem}
      (hitem : document.texts[index]? = some item)
      (hname : NamedBy call.annotation.selfRef kTexts item.selfRef index)
      (hwrite : call.writeText item = some after) :
      ChangesNamed call document { document with texts := document.texts.set index after }

/-- A call that returns false leaves the document, and one that returns true changes the item it
names. -/
structure FoldsNamed (call : Call) (document : Document) : Prop where
  unchanged : (call.fold document).1 = false → (call.fold document).2 = document
  changed : (call.fold document).1 = true → ChangesNamed call document (call.fold document).2

/-- The code or formula item a call finds has the name of its reference, or it has none. -/
def NamesItem (call : Call) (document : Document) : Prop :=
  ∀ index item, textItemFor call.annotation.selfRef document = some index →
    document.texts[index]? = some item → (call.writeText item).isSome →
      call.annotation.selfRef ≠ "" ∧
        (item.selfRef = call.annotation.selfRef ∨ item.selfRef = "")

/-- A picture that a call has a chart for has the chart of its meta fields among its annotations. -/
def KeepsChart (call : Call) (document : Document) : Prop :=
  ∀ index picture, pictureFor call.annotation.selfRef document = some index →
    document.pictures[index]? = some picture → call.chart?.isSome →
      picture.chartField ≠ none → picture.tabularCharts ≠ []

theorem arenaIndex_nil (start : String) (h : start.toList ≠ []) :
  arenaIndex "" start = none
  := by
  rw [arenaIndex]
  cases hstart : start.toList with
  | nil => exact absurd hstart h
  | cons first rest => simp

/-- A picture is found by its name, or it has none and is found by its place. -/
theorem pictureFor_named {selfRef : String} {document : Document} {index : ℕ}
    (h : pictureFor selfRef document = some index)
    (hpicture : document.pictures[index]? = some picture) :
  NamedBy selfRef kPictures picture.selfRef index
  := by
  rw [pictureFor] at h
  split at h
  case h_1 found hfound =>
    obtain rfl := Option.some.inj h
    obtain ⟨hlt, hmatch, -⟩ := List.findIdx?_eq_some_iff_getElem.mp hfound
    obtain ⟨-, rfl⟩ := List.getElem?_eq_some_iff.mp hpicture
    left
    simpa using hmatch
  case h_2 hnone =>
    obtain ⟨hindex, hname⟩ := Option.filter_eq_some_iff.mp h
    right
    rw [hpicture] at hname
    exact ⟨by simpa using hname, hindex⟩

/-- A text item is found by its name, or no item has the name and it is found by its place. -/
theorem textItemFor_cases {selfRef : String} {document : Document} {index : ℕ}
    {item : BaseTextItem} (h : textItemFor selfRef document = some index)
    (hitem : document.texts[index]? = some item) :
  item.selfRef = selfRef ∨
    ((∀ other ∈ document.texts, other.covered = true → other.selfRef ≠ selfRef) ∧
      arenaIndex selfRef kTexts = some index)
  := by
  rw [textItemFor] at h
  split at h
  case h_1 found hfound =>
    obtain rfl := Option.some.inj h
    obtain ⟨hlt, hmatch, -⟩ := List.findIdx?_eq_some_iff_getElem.mp hfound
    obtain ⟨-, rfl⟩ := List.getElem?_eq_some_iff.mp hitem
    left
    simp only [Bool.and_eq_true, decide_eq_true_eq] at hmatch
    exact hmatch.2
  case h_2 hnone =>
    right
    refine ⟨?_, (Option.filter_eq_some_iff.mp h).1⟩
    intro other hother hcovered hname
    have hfalse := List.findIdx?_eq_none_iff.mp hnone other hother
    simp [hcovered, hname] at hfalse

theorem Call.onPicture_of_writePicture {picture after : PictureItem}
    (h : call.writePicture picture = some after) :
  call.onPicture = true
  := by
  by_contra hkind
  rw [writePicture_of_not_onPicture (by simpa using hkind)] at h
  cases h

/-- An item that a call finds and writes on is named by the reference if its own name is that of the
reference or empty. -/
theorem namedBy_of_namesItem {document : Document} {index : ℕ} {item : BaseTextItem}
    (hplace : textItemFor call.annotation.selfRef document = some index)
    (hitem : document.texts[index]? = some item) (href : call.annotation.selfRef ≠ "")
    (hname : item.selfRef = call.annotation.selfRef ∨ item.selfRef = "") :
  NamedBy call.annotation.selfRef kTexts item.selfRef index
  := by
  by_cases hempty : item.selfRef = ""
  · right
    refine ⟨hempty, ?_⟩
    rcases textItemFor_cases hplace hitem with hfound | ⟨-, hindex⟩
    · exact absurd (hfound.symm.trans hempty) href
    · exact hindex
  · left
    exact ⟨hempty, hname.resolve_right hempty⟩

theorem namedBy_ne_nil {selfRef name : String} {index : ℕ}
    (h : NamedBy selfRef kTexts name index) :
  selfRef ≠ ""
  := by
  rcases h with ⟨hne, rfl⟩ | ⟨-, hindex⟩
  · exact hne
  · rintro rfl
    rw [arenaIndex_nil kTexts (by decide)] at hindex
    cases hindex

/-- A call changes the item it names exactly if the item it finds has that name or none. -/
theorem foldsNamed_iff (call : Call) (document : Document) :
  FoldsNamed call document ↔ NamesItem call document
  := by
  constructor
  · rintro ⟨-, hchanged⟩ index item hplace hitem hsome
    have hwrites := call.fold_writes document
    generalize call.fold document = result at hwrites hchanged
    cases hwrites with
    | nothing _ hnone =>
      rw [hnone index item hplace hitem] at hsome
      cases hsome
    | picture _ picture after _ _ hwrite =>
      rw [writeText_of_onPicture (onPicture_of_writePicture hwrite)] at hsome
      cases hsome
    | text other changed after hother hget hwrite =>
      obtain rfl := Option.some.inj (hplace.symm.trans hother)
      obtain rfl := Option.some.inj (hitem.symm.trans hget)
      have hwritten := hchanged rfl
      generalize ({ document with texts := document.texts.set index after } : Document) = written
        at hwritten
      cases hwritten with
      | picture _ _ hpicture =>
        rw [writeText_of_onPicture (onPicture_of_writePicture hpicture)] at hsome
        cases hsome
      | text hnamedItem hname hnamed =>
        have href := namedBy_ne_nil hname
        refine ⟨href, ?_⟩
        rcases textItemFor_cases hplace hitem with hfound | ⟨hnone, hindex⟩
        · exact Or.inl hfound
        · right
          rcases hname with ⟨-, hname⟩ | ⟨hempty, hplaced⟩
          · exact absurd hname
              (hnone _ (mem_of_getElem? hnamedItem) (writeText_outline hnamed).2)
          · obtain rfl := Option.some.inj (hindex.symm.trans hplaced)
            obtain rfl := Option.some.inj (hitem.symm.trans hnamedItem)
            exact hempty
  · intro h
    have hwrites := call.fold_writes document
    constructor
    case unchanged =>
      generalize call.fold document = result at hwrites
      intro hfalse
      cases hwrites with
      | nothing => rfl
      | picture => cases hfalse
      | text => cases hfalse
    case changed =>
      generalize call.fold document = result at hwrites
      intro htrue
      cases hwrites with
      | nothing => cases htrue
      | picture index picture after hplace hpicture hwrite =>
        exact .picture hpicture (pictureFor_named hplace hpicture) hwrite
      | text index item after hplace hitem hwrite =>
        obtain ⟨href, hname⟩ := h index item hplace hitem (by rw [hwrite]; rfl)
        exact .text hitem (namedBy_of_namesItem hplace hitem href hname) hwrite

/-! ### Runs -/

/-- The place of a text item depends on the kinds and the names. -/
theorem SameNames.textItemFor_eq {left right : Document} (h : SameNames left right)
    (selfRef : String) :
  textItemFor selfRef left = textItemFor selfRef right
  := by
  have hfind (document : Document) :
      document.texts.findIdx? (fun item => item.covered && item.selfRef = selfRef) =
      (document.texts.map BaseTextItem.outline).findIdx?
        (fun item => item.covered && item.selfRef = selfRef) := by
    rw [findIdx?_map]
    congr 1
    funext item
    simp
  have hlength : left.texts.length = right.texts.length := by
    have hmap := congrArg length h.texts
    simpa using hmap
  rw [textItemFor, textItemFor, hfind, hfind, h.texts, hlength]

theorem SameNames.namesItem {left right : Document} (h : SameNames left right)
    (hright : NamesItem call right) :
  NamesItem call left
  := by
  intro index item hplace hitem hsome
  rw [h.textItemFor_eq] at hplace
  have hmap : (right.texts.map BaseTextItem.outline)[index]? = some item.outline := by
    rw [← h.texts, getElem?_map, hitem]
    rfl
  rw [getElem?_map] at hmap
  obtain ⟨other, hother, houtline⟩ := Option.map_eq_some_iff.mp hmap
  have hotherSome : (call.writeText other).isSome := by
    rwa [← writeText_isSome_outline, houtline, writeText_isSome_outline]
  have hname : other.selfRef = item.selfRef := by
    rw [← BaseTextItem.outline_selfRef other, houtline, BaseTextItem.outline_selfRef]
  rw [← hname]
  exact hright index other hplace hother hotherSome

/-- The answers of a run: each call changes the item it names or nothing, and each picture is answered
once. -/
structure AnswersOnce (calls : List Call) (document : Document) : Prop where
  named : ∀ before call after, calls = before ++ call :: after →
    FoldsNamed call (run before document)
  pictures : ∀ index picture, document.pictures[index]? = some picture →
    ∃ after, (run calls document).pictures[index]? = some after ∧
      AnsweredOnce picture after (answersFor document index calls)

/-- Answers are folded once and where they belong exactly if the items found by the calls are those
that the references name and no picture has its chart in its meta fields alone. -/
theorem answersOnce_iff (calls : List Call) (document : Document) :
  AnswersOnce calls document ↔
    ∀ call ∈ calls, NamesItem call document ∧ KeepsChart call document
  := by
  constructor
  · rintro ⟨hnamed, hpictures⟩ call hcall
    constructor
    · obtain ⟨before, after, hcalls⟩ := List.append_of_mem hcall
      have hitem := (foldsNamed_iff call _).mp (hnamed before call after hcalls)
      have hnames := run_sameNames before document
      exact SameNames.namesItem ⟨hnames.pictures.symm, hnames.texts.symm⟩ hitem
    · intro index picture hplace hpicture hchart hfield
      obtain ⟨after, hafter, honce⟩ := hpictures index picture hpicture
      rw [run_picture, hpicture] at hafter
      obtain rfl := Option.some.inj hafter
      apply (answeredOnce_iff _ picture).mp honce call _ hchart hfield
      exact List.mem_filter.mpr ⟨hcall, by simpa using hplace⟩
  · intro h
    constructor
    case named =>
      rintro before call after rfl
      apply (foldsNamed_iff call _).mpr
      exact (run_sameNames before document).namesItem (h call (by simp)).1
    case pictures =>
      intro index picture hpicture
      use (answersFor document index calls).foldl Call.answered picture
      constructor
      · rw [run_picture, hpicture]
        rfl
      · apply (answeredOnce_iff _ picture).mpr
        intro call hcall hchart hfield
        obtain ⟨hmem, hplace⟩ := List.mem_filter.mp hcall
        exact (h call hmem).2 index picture (by simpa using hplace) hpicture hchart hfield

/-- A code item at the place of the reference is given another text although its name is another. -/
theorem foldCodeAnnotation_otherName :
  ¬ ∀ calls document, AnswersOnce calls document
  := by
  intro h
  have honce := h
    [{ kind := FoldKind.codeAnnotation
       annotation := { selfRef := "#/texts/0", payload := .code "print(42)" .python "" false } }]
    { texts := [.code { selfRef := "#/texts/7", text := "x = 1" }] }
  have hnames := (foldsNamed_iff _ _).mp (honce.named [] _ [] rfl)
  have hitem := hnames 0 (.code { selfRef := "#/texts/7", text := "x = 1" })
    (by decide) rfl (by decide)
  exact absurd hitem.2 (by decide)

end GRParse.Enrich
