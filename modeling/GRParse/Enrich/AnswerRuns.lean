import GRParse.Enrich.Answers
import GRParse.Lib.Lists

/-!
# Sequences of answers

Whatever order the answers come in, a picture keeps what it had, and otherwise it has the first answer
for it; the item that is written is the one the reference names.  Two things are asked of the document
for this: a picture whose chart is in its meta fields has it among its annotations too, and a code or
formula item found by its place has no other name.
-/

namespace GRParse.Enrich

open Option Call

/-! ### What a call answers -/

/-- What a call answers, if its annotation is one for its fold and is not empty. -/
inductive Answer where
  | nothing
  | chart (title : String) (table : TableData)
  | description (text provenance : String) (nonempty : text ≠ "")
  | chartCode (text : String) (language : CodeLanguageLabel) (nonempty : text ≠ "")
  | code (text : String) (language : CodeLanguageLabel) (languageRaw : String)
      (truncatedOnRepetition : Bool)
  | formula (text : String) (truncatedOnRepetition : Bool)

def Call.answer (call : Call) : Answer :=
  match call.kind, call.annotation.payload with
  | .chartTable, .chartTable title table => if emptyTable table then .nothing else .chart title table
  | .chartSummary, .chartSummary text =>
    if h : text = "" then .nothing else .description text call.annotation.model h
  | .chartCode, .chartCode text language =>
    if h : text = "" then .nothing else .chartCode text language h
  | .pictureDescription, .description text =>
    if h : text = "" then .nothing else .description text "" h
  | FoldKind.codeAnnotation, .code text language languageRaw truncatedOnRepetition =>
    if text = "" then .nothing else .code text language languageRaw truncatedOnRepetition
  | FoldKind.formulaAnnotation, .formula text truncatedOnRepetition =>
    if text = "" then .nothing else .formula text truncatedOnRepetition
  | _, _ => .nothing

/-- What a call makes of the picture its reference names. -/
def Call.writePicture (call : Call) (picture : PictureItem) : Option PictureItem :=
  match call.answer with
  | .chart title table => writeChartTable title table call.annotation.model call.endpoint picture
  | .description text provenance _ =>
    writeDescription text provenance call.annotation.model call.endpoint picture
  | .chartCode text language _ =>
    writeChartCode text language call.annotation.model call.endpoint picture
  | .nothing | .code .. | .formula .. => none

/-- What a call makes of the text item its reference names. -/
def Call.writeText (call : Call) (item : BaseTextItem) : Option BaseTextItem :=
  match call.answer with
  | .code text language languageRaw truncatedOnRepetition =>
    writeCode text language languageRaw truncatedOnRepetition call.annotation.model item
  | .formula text truncatedOnRepetition =>
    writeFormula text truncatedOnRepetition call.annotation.model item
  | .nothing | .chart .. | .description .. | .chartCode .. => none

def Call.onPicture (call : Call) : Bool :=
  match call.kind with
  | .chartTable | .chartSummary | .chartCode | .pictureDescription => true
  | FoldKind.codeAnnotation | FoldKind.formulaAnnotation => false

theorem foldPicture_of_none {write : PictureItem → Option PictureItem} (h : ∀ picture,
    write picture = none) (selfRef : String) (document : Document) :
  foldPicture selfRef write document = (false, document)
  := by
  have hbind (index : ℕ) : document.pictures[index]?.bind write = none := by
    cases document.pictures[index]? with
    | none => rfl
    | some picture => exact h picture
  rw [foldPicture]
  cases pictureFor selfRef document with
  | none => rfl
  | some index => simp only [hbind]

theorem foldText_of_none {write : BaseTextItem → Option BaseTextItem} (h : ∀ item,
    write item = none) (selfRef : String) (document : Document) :
  foldText selfRef write document = (false, document)
  := by
  have hbind (index : ℕ) : document.texts[index]?.bind write = none := by
    cases document.texts[index]? with
    | none => rfl
    | some item => exact h item
  rw [foldText]
  cases textItemFor selfRef document with
  | none => rfl
  | some index => simp only [hbind]

/-- A call writes on a picture, or it writes on a text item. -/
theorem Call.fold_eq (call : Call) (document : Document) :
  call.fold document =
    if call.onPicture then foldPicture call.annotation.selfRef call.writePicture document
    else foldText call.annotation.selfRef call.writeText document
  := by
  have hnothing (h : call.answer = .nothing) :
      (if call.onPicture then foldPicture call.annotation.selfRef call.writePicture document
        else foldText call.annotation.selfRef call.writeText document) = (false, document) := by
    rw [foldPicture_of_none (by simp [writePicture, h]),
      foldText_of_none (by simp [writeText, h])]
    split <;> rfl
  obtain ⟨kind, ⟨selfRef, model, payload⟩, endpoint⟩ := call
  cases kind <;> cases payload
  all_goals
    first
    | rw [hnothing rfl]
      rfl
    | simp only [fold, foldChartTable, foldChartSummary, foldChartCode,
        foldPictureDescription, foldCodeAnnotation, foldFormulaAnnotation]
      split
      case isTrue h =>
        rw [hnothing (by simp [answer, h])]
      case isFalse h =>
        simp only [onPicture, if_true, Bool.false_eq_true, if_false]
        congr 1
        funext item
        simp [writePicture, writeText, answer, h]

/-! ### Names stay -/

@[simp]
theorem addGenerationSource_selfRef (model endpoint : String) (picture : PictureItem) :
  (addGenerationSource model endpoint picture).selfRef = picture.selfRef
  := by
  rw [addGenerationSource]
  split <;> rfl

@[simp]
theorem addGenerationSource_metaFields (model endpoint : String) (picture : PictureItem) :
  (addGenerationSource model endpoint picture).metaFields = picture.metaFields
  := by
  rw [addGenerationSource]
  split <;> rfl

@[simp]
theorem addGenerationSource_annotations (model endpoint : String) (picture : PictureItem) :
  (addGenerationSource model endpoint picture).annotations = picture.annotations
  := by
  rw [addGenerationSource]
  split <;> rfl

/-- A picture keeps its name. -/
theorem Call.writePicture_selfRef {call : Call} {picture after : PictureItem}
    (h : call.writePicture picture = some after) :
  after.selfRef = picture.selfRef
  := by
  rw [writePicture] at h
  cases hanswer : call.answer <;> rw [hanswer] at h
  case chart | description | chartCode =>
    simp only [writeChartTable, writeDescription, writeChartCode] at h
    split at h
    case isTrue => cases h
    case isFalse =>
      obtain rfl := some.inj h
      exact addGenerationSource_selfRef _ _ _
  all_goals cases h

/-- A text item without all but its kind and its name. -/
def BaseTextItem.outline : BaseTextItem → BaseTextItem
  | .unset => .unset
  | .code item => .code { selfRef := item.selfRef }
  | .formula base => .formula { selfRef := base.selfRef }
  | .text base => .text { selfRef := base.selfRef }
  | .sectionHeader base => .sectionHeader { selfRef := base.selfRef }
  | .other base => .other { selfRef := base.selfRef }

@[simp]
theorem BaseTextItem.outline_selfRef (item : BaseTextItem) :
  item.outline.selfRef = item.selfRef
  := by
  cases item <;> rfl

@[simp]
theorem BaseTextItem.outline_covered (item : BaseTextItem) :
  item.outline.covered = item.covered
  := by
  cases item <;> rfl

/-- A text item keeps its kind and its name, and it is one that is looked up by its name. -/
theorem Call.writeText_outline {call : Call} {item after : BaseTextItem}
    (h : call.writeText item = some after) :
  after.outline = item.outline ∧ item.covered = true
  := by
  rw [writeText] at h
  cases hanswer : call.answer <;> rw [hanswer] at h
  case code | formula =>
    cases item <;> cases h
    exact ⟨rfl, rfl⟩
  all_goals cases h

/-- Whether a call writes on a text item depends on its kind. -/
theorem Call.writeText_isSome_outline (call : Call) (item : BaseTextItem) :
  (call.writeText item.outline).isSome = (call.writeText item).isSome
  := by
  rw [writeText, writeText]
  cases call.answer <;> cases item <;> rfl

/-- Two documents name their items alike. -/
structure SameNames (left right : Document) : Prop where
  pictures : left.pictures.map PictureItem.selfRef = right.pictures.map PictureItem.selfRef
  texts : left.texts.map BaseTextItem.outline = right.texts.map BaseTextItem.outline

theorem SameNames.refl (document : Document) :
  SameNames document document
  := ⟨rfl, rfl⟩

theorem SameNames.trans {first second third : Document} (h : SameNames first second)
    (h' : SameNames second third) :
  SameNames first third
  := ⟨h.pictures.trans h'.pictures, h.texts.trans h'.texts⟩

/-- A call for pictures makes nothing of a text item, and the other way round. -/
theorem Call.writeText_of_onPicture {call : Call} (h : call.onPicture = true) (item : BaseTextItem) :
  call.writeText item = none
  := by
  obtain ⟨kind, ⟨selfRef, model, payload⟩, endpoint⟩ := call
  cases kind <;> cases h
  all_goals
    cases payload <;> simp only [writeText, answer]
    split_ifs <;> rfl

theorem Call.writePicture_of_not_onPicture {call : Call} (h : call.onPicture = false)
    (picture : PictureItem) :
  call.writePicture picture = none
  := by
  obtain ⟨kind, ⟨selfRef, model, payload⟩, endpoint⟩ := call
  cases kind <;> cases h
  all_goals
    cases payload <;> simp only [writePicture, answer]
    split_ifs <;> rfl

/-- A call that writes puts what it makes of one item in its place; any other call changes nothing. -/
inductive Writes (call : Call) (document : Document) : Bool × Document → Prop where
  | nothing
      (hpicture : ∀ index picture, pictureFor call.annotation.selfRef document = some index →
        document.pictures[index]? = some picture → call.writePicture picture = none)
      (hitem : ∀ index item, textItemFor call.annotation.selfRef document = some index →
        document.texts[index]? = some item → call.writeText item = none) :
      Writes call document (false, document)
  | picture (index : ℕ) (picture after : PictureItem)
      (hplace : pictureFor call.annotation.selfRef document = some index)
      (hpicture : document.pictures[index]? = some picture)
      (hwrite : call.writePicture picture = some after) :
      Writes call document (true, { document with pictures := document.pictures.set index after })
  | text (index : ℕ) (item after : BaseTextItem)
      (hplace : textItemFor call.annotation.selfRef document = some index)
      (hitem : document.texts[index]? = some item)
      (hwrite : call.writeText item = some after) :
      Writes call document (true, { document with texts := document.texts.set index after })

theorem Call.fold_writes (call : Call) (document : Document) :
  Writes call document (call.fold document)
  := by
  rw [fold_eq]
  cases hkind : call.onPicture with
  | true =>
    have htext : ∀ item, call.writeText item = none := writeText_of_onPicture hkind
    rw [if_pos rfl, foldPicture]
    cases hplace : pictureFor call.annotation.selfRef document with
    | none => exact .nothing (by simp [hplace]) (fun _ item _ _ => htext item)
    | some index =>
      cases hbind : document.pictures[index]?.bind call.writePicture with
      | none =>
        simp only [hbind]
        apply Writes.nothing _ (fun _ item _ _ => htext item)
        intro other picture hother hpicture
        obtain rfl := some.inj (hplace.symm.trans hother)
        rwa [hpicture, bind_some] at hbind
      | some after =>
        obtain ⟨picture, hpicture, hwrite⟩ := bind_eq_some_iff.mp hbind
        simp only [hbind]
        exact .picture index picture after hplace hpicture hwrite
  | false =>
    have hpicture : ∀ picture, call.writePicture picture = none :=
      writePicture_of_not_onPicture hkind
    rw [if_neg Bool.false_ne_true, foldText]
    cases hplace : textItemFor call.annotation.selfRef document with
    | none => exact .nothing (fun _ picture _ _ => hpicture picture) (by simp [hplace])
    | some index =>
      cases hbind : document.texts[index]?.bind call.writeText with
      | none =>
        simp only [hbind]
        apply Writes.nothing (fun _ picture _ _ => hpicture picture)
        intro other item hother hitem
        obtain rfl := some.inj (hplace.symm.trans hother)
        rwa [hitem, bind_some] at hbind
      | some after =>
        obtain ⟨item, hitem, hwrite⟩ := bind_eq_some_iff.mp hbind
        simp only [hbind]
        exact .text index item after hplace hitem hwrite

/-- Setting an element to one with the same image leaves the images. -/
theorem map_set_of_eq {α β : Type} {f : α → β} {list : List α} {index : ℕ} {element after : α}
    (h : list[index]? = some element) (hf : f after = f element) :
  (list.set index after).map f = list.map f
  := by
  rw [List.map_set, hf]
  apply List.ext_getElem?
  intro other
  rw [List.getElem?_set]
  split
  case isTrue heq =>
    subst heq
    obtain ⟨hlt, -⟩ := List.getElem?_eq_some_iff.mp h
    rw [List.length_map, if_pos hlt, List.getElem?_map, h]
    rfl
  case isFalse => rfl

/-- Calls leave the names. -/
theorem Call.fold_sameNames (call : Call) (document : Document) :
  SameNames (call.fold document).2 document
  := by
  have hwrites := call.fold_writes document
  generalize call.fold document = result at hwrites ⊢
  cases hwrites with
  | nothing => exact .refl document
  | picture index picture after hplace hpicture hwrite =>
    exact ⟨map_set_of_eq hpicture (writePicture_selfRef hwrite), rfl⟩
  | text index item after hplace hitem hwrite =>
    exact ⟨rfl, map_set_of_eq hitem (writeText_outline hwrite).1⟩

theorem run_sameNames (calls : List Call) (document : Document) :
  SameNames (run calls document) document
  := by
  induction calls generalizing document with
  | nil => exact .refl document
  | cons call calls ih => exact (ih _).trans (call.fold_sameNames document)

/-- The place of a picture depends on the names. -/
theorem SameNames.pictureFor_eq {left right : Document} (h : SameNames left right)
    (selfRef : String) :
  pictureFor selfRef left = pictureFor selfRef right
  := by
  have hfind (document : Document) :
      document.pictures.findIdx? (fun picture =>
        picture.selfRef ≠ "" && picture.selfRef = selfRef) =
      (document.pictures.map PictureItem.selfRef).findIdx?
        (fun name => name ≠ "" && name = selfRef) := by
    rw [List.findIdx?_map]
    rfl
  rw [pictureFor, pictureFor, hfind, hfind, h.pictures]
  simp only [← List.getElem?_map, h.pictures]

/-! ### The pictures of a run -/

/-- A picture after a call that names it. -/
def Call.answered (picture : PictureItem) (call : Call) : PictureItem :=
  (call.writePicture picture).getD picture

/-- The calls that name the picture at a place. -/
def answersFor (document : Document) (index : ℕ) (calls : List Call) : List Call :=
  calls.filter (fun call => pictureFor call.annotation.selfRef document = some index)

/-- A call changes the picture it names alone. -/
theorem Call.fold_picture (call : Call) (document : Document) (index : ℕ) :
  (call.fold document).2.pictures[index]? =
    document.pictures[index]?.map (fun picture =>
      if pictureFor call.annotation.selfRef document = some index then Call.answered picture call
      else picture)
  := by
  have hwrites := call.fold_writes document
  generalize call.fold document = result at hwrites ⊢
  cases hwrites with
  | nothing hpicture hitem =>
    cases hget : document.pictures[index]? with
    | none => rfl
    | some picture =>
      rw [map_some]
      split
      case isTrue hplace => rw [answered, hpicture index picture hplace hget, getD_none]
      case isFalse => rfl
  | picture place picture after hplace hpicture hwrite =>
    rw [List.getElem?_set]
    split
    case isTrue heq =>
      subst heq
      obtain ⟨hlt, -⟩ := List.getElem?_eq_some_iff.mp hpicture
      rw [if_pos hlt, hpicture, map_some, if_pos hplace, answered, hwrite,
        getD_some]
    case isFalse hne =>
      have hother : pictureFor call.annotation.selfRef document ≠ some index := by
        rw [hplace]
        simpa using hne
      simp [hother]
  | text place item after hplace hitem hwrite =>
    cases hget : document.pictures[index]? with
    | none => simp
    | some picture =>
      have hnone : call.writePicture picture = none := by
        apply writePicture_of_not_onPicture
        by_contra hkind
        rw [writeText_of_onPicture (by simpa using hkind)] at hwrite
        cases hwrite
      simp [answered, hnone]

/-- A picture after a run: the calls that name it, one after the other. -/
theorem run_picture (calls : List Call) (document : Document) (index : ℕ) :
  (run calls document).pictures[index]? =
    document.pictures[index]?.map ((answersFor document index calls).foldl Call.answered)
  := by
  induction calls generalizing document with
  | nil => simp [run, answersFor]
  | cons call calls ih =>
    have hcalls : answersFor (call.fold document).2 index calls =
        answersFor document index calls := by
      simp only [answersFor, (call.fold_sameNames document).pictureFor_eq]
    have hrun : run (call :: calls) document = run calls (call.fold document).2 := rfl
    rw [hrun, ih, hcalls, call.fold_picture, map_map]
    congr 1
    funext picture
    by_cases hplace : pictureFor call.annotation.selfRef document = some index <;>
      simp [hplace, answersFor]

end GRParse.Enrich
