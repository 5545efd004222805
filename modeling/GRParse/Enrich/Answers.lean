import GRParse.Document.References

/-!
# Answers folded into a document

The enrich service answers with annotations that name items of the document.  A picture receives a
chart table, a description or code, and a code or formula item receives another text.  Each fold looks
the item up, asks whether it was answered before, and writes the answer; it tells whether it did.

A picture is found by its name, or by its place if it has none.  A text item is found by its name if it
is a code, a formula, a text or a section header, and otherwise by its place.

The data are the fields the folds read or write.
-/

namespace GRParse.Enrich

/-! ### Tables -/

structure TableCell where
  startRowOffsetIdx : ℤ := 0
  endRowOffsetIdx : ℤ := 0
  startColOffsetIdx : ℤ := 0
  endColOffsetIdx : ℤ := 0
  text : String := ""
deriving DecidableEq

structure TableData where
  tableCells : List TableCell := []
  numRows : ℤ := 0
  numCols : ℤ := 0
  grid : List (List TableCell) := []
deriving DecidableEq

def cellsExtent (data : TableData) (rows : Bool) : ℤ :=
  data.tableCells.foldl
    (fun extent cell =>
      max (max extent (if rows then cell.endRowOffsetIdx else cell.endColOffsetIdx))
        (1 + if rows then cell.startRowOffsetIdx else cell.startColOffsetIdx))
    0

/-- The table with its extent, which the peer may leave at zero. -/
def normalizedTable (table : TableData) : TableData :=
  { table with
    numRows := if table.numRows = 0 then cellsExtent table true else table.numRows
    numCols := if table.numCols = 0 then cellsExtent table false else table.numCols }

def emptyTable (table : TableData) : Bool :=
  table.tableCells.isEmpty && table.grid.all List.isEmpty

/-! ### Items -/

inductive CodeLanguageLabel where
  | unspecified
  | python
  | other (number : ℕ)
deriving DecidableEq

inductive GenerationTruncation where
  | unspecified
  | repetition
deriving DecidableEq

structure GenerationSource where
  model : String
  endpoint : Option String := none
  truncation : Option GenerationTruncation := none
deriving DecidableEq

inductive SourceType where
  | generation (source : GenerationSource)
  | other (kind : String)
deriving DecidableEq

structure PictureTabularChartData where
  kind : String
  title : String
  chartData : TableData
deriving DecidableEq

inductive PictureAnnotation where
  | tabularChart (chart : PictureTabularChartData)
  | description (kind text provenance : String)
  | other (kind : String)
deriving DecidableEq

structure TabularChartMetaField where
  createdBy : Option String := none
  title : Option String := none
  chartData : TableData := {}
deriving DecidableEq

structure DescriptionMetaField where
  createdBy : Option String := none
  text : String := ""
deriving DecidableEq

structure CodeMetaField where
  createdBy : Option String := none
  text : String := ""
  language : CodeLanguageLabel := .unspecified
deriving DecidableEq

structure PictureMeta where
  description : Option DescriptionMetaField := none
  tabularChart : Option TabularChartMetaField := none
  code : Option CodeMetaField := none
deriving DecidableEq

structure PictureItem where
  selfRef : String := ""
  metaFields : Option PictureMeta := none
  source : List SourceType := []
  annotations : List PictureAnnotation := []
deriving DecidableEq

/-- `meta()`: the defaults when the picture has none. -/
def PictureItem.getMeta (picture : PictureItem) : PictureMeta :=
  picture.metaFields.getD {}

structure TextItemBase where
  selfRef : String := ""
  text : String := ""
  source : List SourceType := []
deriving DecidableEq

structure CodeItem where
  selfRef : String := ""
  text : String := ""
  source : List SourceType := []
  codeLanguage : Option CodeLanguageLabel := none
  codeLanguageRaw : Option String := none
deriving DecidableEq

/-- A text item; `other` is a title, a list item, a field heading or a field value. -/
inductive BaseTextItem where
  | unset
  | code (item : CodeItem)
  | formula (base : TextItemBase)
  | text (base : TextItemBase)
  | sectionHeader (base : TextItemBase)
  | other (base : TextItemBase)
deriving DecidableEq

def BaseTextItem.selfRef : BaseTextItem → String
  | .unset => ""
  | .code item => item.selfRef
  | .formula base | .text base | .sectionHeader base | .other base => base.selfRef

structure Document where
  texts : List BaseTextItem := []
  pictures : List PictureItem := []
deriving DecidableEq

/-! ### Annotations -/

/-- The payload of an annotation; one at most is set. -/
inductive Payload where
  | unset
  | description (text : String)
  | chartTable (title : String) (table : TableData)
  | code (text : String) (language : CodeLanguageLabel) (languageRaw : String)
      (truncatedOnRepetition : Bool)
  | formula (text : String) (truncatedOnRepetition : Bool)
  | chartSummary (text : String)
  | chartCode (text : String) (language : CodeLanguageLabel)
deriving DecidableEq

structure ItemAnnotation where
  selfRef : String
  model : String := ""
  payload : Payload := .unset
deriving DecidableEq

/-- A text field is set only to a text that is not empty. -/
def setText (text : String) (field : Option String) : Option String :=
  if text = "" then field else some text

/-! ### Pictures -/

def PictureAnnotation.tabularChart? : PictureAnnotation → Option PictureTabularChartData
  | .tabularChart chart => some chart
  | _ => none

def hasTabularChart (picture : PictureItem) : Bool :=
  picture.annotations.any (fun one => one.tabularChart?.isSome)

/-- The place of the picture a reference names. -/
def pictureFor (selfRef : String) (document : Document) : Option ℕ :=
  match document.pictures.findIdx? (fun picture =>
      picture.selfRef ≠ "" && picture.selfRef = selfRef) with
  | some index => some index
  | none =>
    (arenaIndex selfRef kPictures).filter fun index =>
      (document.pictures[index]?.map PictureItem.selfRef) = some ""

/-- A model is named once for an endpoint. -/
def addGenerationSource (model endpoint : String) (picture : PictureItem) : PictureItem :=
  let named : SourceType → Bool
    | .generation source => source.model = model && source.endpoint.getD "" = endpoint
    | .other _ => false
  if picture.source.any named then picture
  else
    { picture with
      source := picture.source ++
        [.generation { model := model, endpoint := setText endpoint none }] }

/-- Writes an answer on the picture a reference names, unless `write` finds it answered. -/
def foldPicture (selfRef : String) (write : PictureItem → Option PictureItem)
    (document : Document) : Bool × Document :=
  match pictureFor selfRef document with
  | none => (false, document)
  | some index =>
    match document.pictures[index]?.bind write with
    | none => (false, document)
    | some picture => (true, { document with pictures := document.pictures.set index picture })

def writeChartTable (title : String) (table : TableData) (model endpoint : String)
    (target : PictureItem) : Option PictureItem :=
  if hasTabularChart target then none
  else
    let data := normalizedTable table
    let field := target.getMeta.tabularChart.getD {}
    some (addGenerationSource model endpoint
      { target with
        annotations := target.annotations ++ [.tabularChart ⟨"tabular_chart_data", title, data⟩]
        metaFields := some
          { target.getMeta with
            tabularChart := some
              { createdBy := setText model field.createdBy
                title := setText title field.title
                chartData := data } } })

def foldChartTable ( annotation : ItemAnnotation) (endpoint : String) (document : Document) :
    Bool × Document :=
  match annotation.payload with
  | .chartTable title table =>
    if emptyTable table then (false, document)
    else
      foldPicture annotation.selfRef (writeChartTable title table annotation.model endpoint) document
  | _ => (false, document)

/-- The text of the picture's description, if it has one that is not empty. -/
def PictureItem.descriptionText (picture : PictureItem) : Option String :=
  (picture.getMeta.description.map DescriptionMetaField.text).filter (· ≠ "")

/-- Writes a description; its note in the list of annotations names the model in one of the folds. -/
def writeDescription (text provenance model endpoint : String) (target : PictureItem) :
    Option PictureItem :=
  if target.descriptionText.isSome then none
  else
    let field := target.getMeta.description.getD {}
    some (addGenerationSource model endpoint
      { target with
        metaFields := some
          { target.getMeta with
            description := some { createdBy := setText model field.createdBy, text := text } }
        annotations := target.annotations ++ [.description "description" text provenance] })

def foldChartSummary ( annotation : ItemAnnotation) (endpoint : String) (document : Document) :
    Bool × Document :=
  match annotation.payload with
  | .chartSummary text =>
    if text = "" then (false, document)
    else
      foldPicture annotation.selfRef
        (writeDescription text annotation.model annotation.model endpoint) document
  | _ => (false, document)

def foldPictureDescription ( annotation : ItemAnnotation) (endpoint : String) (document : Document) :
    Bool × Document :=
  match annotation.payload with
  | .description text =>
    if text = "" then (false, document)
    else
      foldPicture annotation.selfRef (writeDescription text "" annotation.model endpoint) document
  | _ => (false, document)

/-- The text of the picture's code, if it has one that is not empty. -/
def PictureItem.codeText (picture : PictureItem) : Option String :=
  (picture.getMeta.code.map CodeMetaField.text).filter (· ≠ "")

def writeChartCode (text : String) (language : CodeLanguageLabel) (model endpoint : String)
    (target : PictureItem) : Option PictureItem :=
  if target.codeText.isSome then none
  else
    let field := target.getMeta.code.getD {}
    some (addGenerationSource model endpoint
      { target with
        metaFields := some
          { target.getMeta with
            code := some
              { createdBy := setText model field.createdBy
                text := text
                language := if language = .unspecified then .python else language } } })

def foldChartCode ( annotation : ItemAnnotation) (endpoint : String) (document : Document) :
    Bool × Document :=
  match annotation.payload with
  | .chartCode text language =>
    if text = "" then (false, document)
    else
      foldPicture annotation.selfRef (writeChartCode text language annotation.model endpoint) document
  | _ => (false, document)

/-! ### Text items -/

/-- The items that are looked up by their names. -/
def BaseTextItem.covered : BaseTextItem → Bool
  | .code _ | .formula _ | .text _ | .sectionHeader _ => true
  | .unset | .other _ => false

/-- The place of the text item a reference names. -/
def textItemFor (selfRef : String) (document : Document) : Option ℕ :=
  match document.texts.findIdx? (fun item => item.covered && item.selfRef = selfRef) with
  | some index => some index
  | none => (arenaIndex selfRef kTexts).filter (· < document.texts.length)

/-- The source that names the model is marked as cut off for repeating itself. -/
def markRepetitionTruncated (model : String) : List SourceType → List SourceType
  | [] => [.generation { model := model, truncation := some .repetition }]
  | .generation source :: sources =>
    if source.model = model then
      .generation { source with truncation := some .repetition } :: sources
    else .generation source :: markRepetitionTruncated model sources
  | source :: sources => source :: markRepetitionTruncated model sources

/-- Writes an answer on the text item a reference names, unless it is of another kind. -/
def foldText (selfRef : String) (write : BaseTextItem → Option BaseTextItem)
    (document : Document) : Bool × Document :=
  match textItemFor selfRef document with
  | none => (false, document)
  | some index =>
    match document.texts[index]?.bind write with
    | none => (false, document)
    | some item => (true, { document with texts := document.texts.set index item })

def writeCode (text : String) (language : CodeLanguageLabel) (languageRaw : String)
    (truncatedOnRepetition : Bool) (model : String) : BaseTextItem → Option BaseTextItem
  | .code item =>
    some (.code
      { item with
        text := text
        codeLanguage := if language = .unspecified then item.codeLanguage else some language
        codeLanguageRaw := setText languageRaw item.codeLanguageRaw
        source :=
          if truncatedOnRepetition then markRepetitionTruncated model item.source
          else item.source })
  | _ => none

def foldCodeAnnotation ( annotation : ItemAnnotation) (document : Document) : Bool × Document :=
  match annotation.payload with
  | .code text language languageRaw truncatedOnRepetition =>
    if text = "" then (false, document)
    else
      foldText annotation.selfRef
        (writeCode text language languageRaw truncatedOnRepetition annotation.model) document
  | _ => (false, document)

def writeFormula (text : String) (truncatedOnRepetition : Bool) (model : String) :
    BaseTextItem → Option BaseTextItem
  | .formula base =>
    some (.formula
      { base with
        text := text
        source :=
          if truncatedOnRepetition then markRepetitionTruncated model base.source
          else base.source })
  | _ => none

def foldFormulaAnnotation ( annotation : ItemAnnotation) (document : Document) : Bool × Document :=
  match annotation.payload with
  | .formula text truncatedOnRepetition =>
    if text = "" then (false, document)
    else
      foldText annotation.selfRef (writeFormula text truncatedOnRepetition annotation.model) document
  | _ => (false, document)

/-! ### Calls -/

inductive FoldKind where
  | chartTable
  | chartSummary
  | chartCode
  | pictureDescription
  | codeAnnotation
  | formulaAnnotation
deriving DecidableEq

/-- A call of one of the folds. -/
structure Call where
  kind : FoldKind
  annotation : ItemAnnotation
  endpoint : String := ""
deriving DecidableEq

def Call.fold (call : Call) : Document → Bool × Document :=
  match call.kind with
  | .chartTable => foldChartTable call.annotation call.endpoint
  | .chartSummary => foldChartSummary call.annotation call.endpoint
  | .chartCode => foldChartCode call.annotation call.endpoint
  | .pictureDescription => foldPictureDescription call.annotation call.endpoint
  | FoldKind.codeAnnotation => foldCodeAnnotation call.annotation
  | FoldKind.formulaAnnotation => foldFormulaAnnotation call.annotation

/-- The document after some calls. -/
def run (calls : List Call) (document : Document) : Document :=
  calls.foldl (fun document call => (call.fold document).2) document

end GRParse.Enrich
