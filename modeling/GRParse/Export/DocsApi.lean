import GRParse.Export.RendererBase

/-!
# The export to the Docs API

`GdocsRenderer` streams a document into the canonical JSON writer as the API's document resource.
Each item of the body becomes a structural element of `body.content`; a picture becomes a paragraph
and an entry of a registry, by its place in the content, and a list an entry of another, with a glyph
for each level that it reached.  Both registries are written behind the body.

The elements of the content are listed beside the writer; the code keeps no such list.
-/

namespace GRParse.Render.JsonWriter

/-! ### Members -/

/-- `member_string`. -/
def memberString (name text : List UInt8) (writer : JsonWriter) : JsonWriter :=
  (writer.key name).valueString text

/-- `member_int`. -/
def memberInt (name : List UInt8) (value : ℤ) (writer : JsonWriter) : JsonWriter :=
  (writer.key name).valueRaw (printedInt value)

/-- `member_double`, over what `std::to_chars` yields. -/
def memberDouble (toChars : ℚ → List UInt8) (name : List UInt8) (value : Double)
    (writer : JsonWriter) : JsonWriter :=
  (writer.key name).valueRaw (canonicalDouble toChars value)

end GRParse.Render.JsonWriter

namespace GRParse.Export

open Grids Render JsonWriter

/-! ### Texts -/

def kFirstHeading : ℤ := 1

def kLastHeading : ℤ := 6

/-- `gdocs_heading_style`. -/
def gdocsHeadingStyle (level : ℤ) : Text :=
  bytes "HEADING_" ++ decimal (min (max level kFirstHeading) kLastHeading).toNat

/-- `gdocs_list_id`. -/
def gdocsListId (index : ℕ) : Text :=
  bytes "kix.list" ++ decimal index

/-- `gdocs_run_content`. -/
def gdocsRunContent (text : Text) : Text :=
  (text.filter (· ≠ 0x0d)).map (fun c => if c = 0x0a then 0x0b else c) ++ [0x0a]

def kNormalText : Text := bytes "NORMAL_TEXT"

def kTitleStyle : Text := bytes "TITLE"

def kCodeFontFamily : Text := bytes "Courier New"

def kRegularWeight : ℤ := 400

def kDecimalGlyph : Text := bytes "DECIMAL"

def kBulletGlyph : Text := [0xe2, 0x97, 0x8f]

def kMaxNestingLevel : ℕ := 8

/-! ### Paragraphs -/

/-- The list of a paragraph, and how deep it is in that. -/
structure Bullet where
  list : ℕ
  nestingLevel : ℕ
  deriving DecidableEq

structure Paragraph where
  text : Text
  namedStyle : Text
  monospace : Bool := false
  bullet : Option Bullet := none
  deriving DecidableEq

namespace Paragraph

def styled (text namedStyle : Text) : Paragraph :=
  { text, namedStyle }

def prose (text : Text) : Paragraph :=
  styled text kNormalText

def source (text : Text) : Paragraph :=
  { text, namedStyle := kNormalText, monospace := true }

def bulleted (text : Text) (bullet : Bullet) : Paragraph :=
  { text, namedStyle := kNormalText, bullet := some bullet }

end Paragraph

/-- `write_text_style`. -/
def writeTextStyle (monospace : Bool) (writer : JsonWriter) : JsonWriter :=
  let writer := writer.beginObject
  let writer :=
    if monospace then
      let writer := (writer.key (bytes "weightedFontFamily")).beginObject
      let writer := writer.memberString (bytes "fontFamily") kCodeFontFamily
      (writer.memberInt (bytes "weight") kRegularWeight).endObject
    else writer
  writer.endObject

/-- The `bullet` member of a paragraph. -/
def writeBullet (bullet : Bullet) (writer : JsonWriter) : JsonWriter :=
  let writer := (writer.key (bytes "bullet")).beginObject
  let writer := writer.memberString (bytes "listId") (gdocsListId bullet.list)
  (writer.memberInt (bytes "nestingLevel") bullet.nestingLevel).endObject

/-- `write_paragraph`. -/
def writeParagraph (paragraph : Paragraph) (writer : JsonWriter) : JsonWriter :=
  let writer := (writer.beginObject.key (bytes "paragraph")).beginObject
  let writer := (writer.key (bytes "elements")).beginArray
  let writer := (writer.beginObject.key (bytes "textRun")).beginObject
  let writer := writer.memberString (bytes "content") (gdocsRunContent paragraph.text)
  let writer := writeTextStyle paragraph.monospace (writer.key (bytes "textStyle"))
  let writer := writer.endObject.endObject.endArray
  let writer := (writer.key (bytes "paragraphStyle")).beginObject
  let writer := (writer.memberString (bytes "namedStyleType") paragraph.namedStyle).endObject
  let writer :=
    match paragraph.bullet with
    | none => writer
    | some bullet => writeBullet bullet writer
  writer.endObject.endObject

/-! ### Tables -/

/-- `write_table_cell`, with the text and the spans of a cell or of an empty position. -/
def writeTableCell (cell : Option TableCell) (writer : JsonWriter) : JsonWriter :=
  let writer := (writer.beginObject.key (bytes "content")).beginArray
  let writer := (writeParagraph (.prose (cell.elim [] TableCell.text)) writer).endArray
  let writer := (writer.key (bytes "tableCellStyle")).beginObject
  let writer := writer.memberInt (bytes "rowSpan") (rowSpanOf cell)
  (writer.memberInt (bytes "columnSpan") (colSpanOf cell)).endObject.endObject

/-- A row of `write_table`. -/
def writeTableRow (row : List (Option TableCell)) (writer : JsonWriter) : JsonWriter :=
  let writer := (writer.beginObject.key (bytes "tableCells")).beginArray
  let writer := row.foldl (fun writer cell => writeTableCell cell writer) writer
  writer.endArray.endObject

/-- `write_table`. -/
def writeTable (grid : Grid) (writer : JsonWriter) : JsonWriter :=
  let writer := (writer.beginObject.key (bytes "table")).beginObject
  let writer := writer.memberInt (bytes "rows") grid.length
  let writer := writer.memberInt (bytes "columns") (columnsOf grid)
  let writer := (writer.key (bytes "tableRows")).beginArray
  let writer := (emittedCells grid).foldl (fun writer row => writeTableRow row writer) writer
  writer.endArray.endObject.endObject

/-! ### The walk -/

/-- A structural element of the body: a paragraph, the paragraph that is left for a picture, or a
table. -/
inductive Element where
  | paragraph (paragraph : Paragraph)
  | picture (picture : PictureItem) (caption : Text)
  | table (grid : Grid)

/-- The calls that write an element. -/
def Element.write : Element → JsonWriter → JsonWriter
  | .paragraph written, writer => writeParagraph written writer
  | .picture _ caption, writer => writeParagraph (.prose caption) writer
  | .table grid, writer => writeTable grid writer

/-- A picture that is to be patched in. -/
structure Placeholder where
  selfRef : Text
  mimetype : Text := []
  width : Double := .zero false
  height : Double := .zero false
  contentIndex : ℕ

/-- The placeholder of a picture. -/
def placeholderOf (picture : PictureItem) (contentIndex : ℕ) : Placeholder :=
  match picture.image with
  | none => { selfRef := picture.selfRef, contentIndex }
  | some image =>
    { selfRef := picture.selfRef
      mimetype := image.mimetype
      width := image.width
      height := image.height
      contentIndex }

/-- The members of `GdocsRenderer`, and the elements of the content. -/
structure GdocsRenderer extends RendererBase where
  writer : JsonWriter := {}
  lists : List (List Bool) := []
  placeholders : List Placeholder := []
  contentIndex : ℕ := 0
  content : List Element := []

/-- The loop of `find_title`, with the function itself for the groups below. -/
def findTitleChild (document : Document)
    (find : GroupItem → Finset String → Option (Option Text × Finset String)) :
    List String → Finset String → Option (Option Text × Finset String)
  | [], seen => some (none, seen)
  | child :: children, seen =>
    if child ∈ seen then findTitleChild document find children seen
    else
      let seen := insert child seen
      match document.textAt child with
      | some (.title base) =>
        if excludedLayer base.contentLayer then findTitleChild document find children seen
        else some (some base.text, seen)
      | some _ => findTitleChild document find children seen
      | none =>
        match document.groupAt child with
        | none => findTitleChild document find children seen
        | some nested =>
          if excludedLayer nested.contentLayer then findTitleChild document find children seen
          else do
            match ← find nested seen with
            | (some title, seen) => some (some title, seen)
            | (none, seen) => findTitleChild document find children seen

/-- `find_title`. -/
def findTitle (document : Document) :
    ℕ → GroupItem → Finset String → Option (Option Text × Finset String)
  | 0, _, _ => none
  | fuel + 1, group, seen =>
    findTitleChild document (findTitle document fuel) group.children seen

/-- `document_title`. -/
def documentTitle (document : Document) : Option Text :=
  (findTitle document document.reach document.body ∅).map fun found =>
    found.1.getD document.name

/-- A child of an inline group: a text that is not consumed yet is joined on with a blank. -/
def addRun (document : Document) (state : Text × Finset String) (child : String) :
    Text × Finset String :=
  let (text, consumed) := state
  match document.textAt child with
  | none => state
  | some item =>
    if child ∈ consumed then state
    else
      match (textBase item).map TextItemBase.text with
      | none | some [] => (text, insert child consumed)
      | some run =>
        ((if text.isEmpty then text else text ++ [0x20]) ++ run, insert child consumed)

/-- The text of an inline group, and what is consumed then. -/
def inlineText (document : Document) (children : List String) (consumed : Finset String) :
    Text × Finset String :=
  children.foldl (addRun document) ([], consumed)

/-- The labels of list groups: `list_group`. -/
def listGroup (group : GroupItem) : Bool :=
  group.label = .list || group.label = .orderedList

/-- `ordered_list`: by the label of the group, or else by its first list item. -/
def numbersItems (document : Document) (group : GroupItem) : Bool :=
  group.label = .orderedList ||
    (group.children.findSome? fun child =>
      match document.textAt child with
      | some (.listItem _ enumerated) => some enumerated
      | _ => none).getD false

namespace GdocsRenderer

variable (document : Document) (renderer : GdocsRenderer)

def consume (ref : String) : GdocsRenderer :=
  { renderer with toRendererBase := renderer.toRendererBase.consume ref }

/-- An element is written as the next one of the content. -/
def addElement (element : Element) : GdocsRenderer :=
  { renderer with
    writer := element.write renderer.writer
    contentIndex := renderer.contentIndex + 1
    content := renderer.content ++ [element] }

/-- `add_paragraph`. -/
def addParagraph (paragraph : Paragraph) : GdocsRenderer :=
  renderer.addElement (.paragraph paragraph)

/-- `open_list`. -/
def openList (enumerated : Bool) : ℕ × GdocsRenderer :=
  (renderer.lists.length, { renderer with lists := renderer.lists ++ [[enumerated]] })

/-- `record_level`. -/
def recordLevel (list level : ℕ) (enumerated : Bool) : GdocsRenderer :=
  { renderer with
    lists := renderer.lists.modify list fun levels =>
      levels ++ List.replicate (level + 1 - levels.length) enumerated }

/-- The text of a list item becomes a list of its own. -/
def renderListItem (text : Text) (enumerated : Bool) : GdocsRenderer :=
  let (list, renderer) := renderer.openList enumerated
  renderer.addParagraph (.bulleted text ⟨list, 0⟩)

def renderText (item : BaseTextItem) : GdocsRenderer :=
  match item with
  | .code code =>
    if excludedLayer code.contentLayer then renderer
    else renderer.addParagraph (.source code.text)
  | item =>
    match textBase item with
    | none => renderer
    | some base =>
      if excludedLayer base.contentLayer then renderer
      else
        match item with
        | .title _ => renderer.addParagraph (.styled base.text kTitleStyle)
        | .sectionHeader _ level | .fieldHeading _ level =>
          renderer.addParagraph (.styled base.text (gdocsHeadingStyle level))
        | .formula _ =>
          if base.text.isEmpty then renderer else renderer.addParagraph (.source base.text)
        | .listItem _ enumerated => renderer.renderListItem base.text enumerated
        | _ => if base.text.isEmpty then renderer else renderer.addParagraph (.prose base.text)

/-- `add_inline_paragraph`. -/
def addInlineParagraph (group : GroupItem) : GdocsRenderer :=
  let (text, consumed) := inlineText document group.children renderer.consumed
  let renderer := { renderer with consumed }
  if text.isEmpty then renderer else renderer.addParagraph (.prose text)

/-- A child of a list, with the function for the lists below. -/
def renderListChild (render : GroupItem → ℕ → ℕ → GdocsRenderer → Option GdocsRenderer)
    (list level : ℕ) (renderer : GdocsRenderer) (child : String) : Option GdocsRenderer :=
  match document.groupAt child with
  | some nested =>
    if listGroup nested ∧ ¬ excludedLayer nested.contentLayer ∧ child ∉ renderer.consumed then
      render nested list (min (level + 1) kMaxNestingLevel) (renderer.consume child)
    else some renderer
  | none =>
    match document.textAt child with
    | none => some renderer
    | some item =>
      if child ∈ renderer.consumed then some renderer
      else
        let renderer := renderer.consume child
        match textBase item with
        | none => some renderer
        | some base =>
          if excludedLayer base.contentLayer then some renderer
          else some (renderer.addParagraph (.bulleted base.text ⟨list, level⟩))

/-- `render_list`. -/
def renderList : ℕ → GroupItem → ℕ → ℕ → GdocsRenderer → Option GdocsRenderer
  | 0, _, _, _, _ => none
  | fuel + 1, group, list, level, renderer =>
    group.children.foldlM (renderListChild document (renderList fuel) list level)
      (renderer.recordLevel list level (numbersItems document group))

def renderTable (table : TableItem) : GdocsRenderer :=
  if excludedLayer table.contentLayer then renderer
  else
    let (captions, base) := renderer.toRendererBase.captionTexts document table.captions
    let (grid, base) := base.tableGrid table.data
    let renderer := { renderer with toRendererBase := base }
    let caption := joined captions
    let renderer := if caption.isEmpty then renderer else renderer.addParagraph (.prose caption)
    if grid.isEmpty then renderer else renderer.addElement (.table grid)

def renderPicture (picture : PictureItem) : GdocsRenderer :=
  if excludedLayer picture.contentLayer then renderer
  else
    let (captions, base) := renderer.toRendererBase.captionTexts document picture.captions
    let renderer :=
      { renderer with
        toRendererBase := base
        placeholders := renderer.placeholders ++ [placeholderOf picture renderer.contentIndex] }
    renderer.addElement (.picture picture (joined captions))

/-- `render_children`, with `render_ref`. -/
def renderChildren (render : GdocsRenderer → String → Option GdocsRenderer)
    (children : List String) (renderer : GdocsRenderer) : Option GdocsRenderer :=
  children.foldlM render renderer

def renderGroup (render : GdocsRenderer → String → Option GdocsRenderer) (group : GroupItem) :
    Option GdocsRenderer :=
  if excludedLayer group.contentLayer then some renderer
  else if listGroup group then
    let (list, renderer) := renderer.openList (numbersItems document group)
    renderList document document.reach group list 0 renderer
  else if group.label = .inline then some (renderer.addInlineParagraph document group)
  else renderChildren render group.children renderer

/-- `render_ref`. -/
def renderRef : ℕ → GdocsRenderer → String → Option GdocsRenderer
  | 0, _, _ => none
  | fuel + 1, renderer, raw =>
    if raw ∈ renderer.consumed then some renderer
    else
      let renderer := renderer.consume raw
      match parseRef raw with
      | .text index => some ((document.texts[index]?).elim renderer renderer.renderText)
      | .table index => some ((document.tables[index]?).elim renderer (renderer.renderTable document))
      | .picture index =>
        some ((document.pictures[index]?).elim renderer (renderer.renderPicture document))
      | .group index =>
        (document.groups[index]?).elim (some renderer)
          (renderer.renderGroup document (renderRef fuel))
      | .fieldRegion index =>
        (document.fieldRegions[index]?).elim (some renderer)
          (renderChildren (renderRef fuel) · renderer)
      | .fieldItem index =>
        (document.fieldItems[index]?).elim (some renderer)
          (renderChildren (renderRef fuel) · renderer)
      | .keyValue _ | .form _ | .unknown => some renderer

end GdocsRenderer

/-! ### The payload -/

/-- The calls up to the content of the body. -/
def openContent (title : Text) (writer : JsonWriter) : JsonWriter :=
  let writer := writer.beginObject.memberString (bytes "title") title
  let writer := (writer.key (bytes "body")).beginObject
  (writer.key (bytes "content")).beginArray

/-- The glyph of a level. -/
def writeLevel (enumerated : Bool) (writer : JsonWriter) : JsonWriter :=
  let writer := writer.beginObject
  let writer :=
    if enumerated then writer.memberString (bytes "glyphType") kDecimalGlyph
    else writer.memberString (bytes "glyphSymbol") kBulletGlyph
  writer.endObject

/-- An entry of the list registry. -/
def writeList (writer : JsonWriter) (entry : List Bool × ℕ) : JsonWriter :=
  let writer := (writer.key (gdocsListId entry.2)).beginObject
  let writer := (writer.key (bytes "listProperties")).beginObject
  let writer := (writer.key (bytes "nestingLevels")).beginArray
  let writer := entry.1.foldl (fun writer enumerated => writeLevel enumerated writer) writer
  writer.endArray.endObject.endObject

/-- `write_lists`. -/
def writeLists (lists : List (List Bool)) (writer : JsonWriter) : JsonWriter :=
  (lists.zipIdx.foldl writeList (writer.key (bytes "lists")).beginObject).endObject

/-- An entry of the placeholder registry. -/
def writePlaceholder (toChars : ℚ → List UInt8) (writer : JsonWriter) (placeholder : Placeholder) :
    JsonWriter :=
  let writer := writer.beginObject.memberString (bytes "selfRef") placeholder.selfRef
  let writer := writer.memberString (bytes "mimeType") placeholder.mimetype
  let writer := (writer.key (bytes "size")).beginObject
  let writer := writer.memberDouble toChars (bytes "width") placeholder.width
  let writer := (writer.memberDouble toChars (bytes "height") placeholder.height).endObject
  (writer.memberInt (bytes "contentOrdinal") placeholder.contentIndex).endObject

/-- `write_placeholders`. -/
def writePlaceholders (toChars : ℚ → List UInt8) (placeholders : List Placeholder)
    (writer : JsonWriter) : JsonWriter :=
  let writer := (writer.key (bytes "inlineImagePlaceholders")).beginArray
  (placeholders.foldl (writePlaceholder toChars) writer).endArray

/-- The walk over the body, behind a title. -/
def walkBody (document : Document) (title : Text) : Option GdocsRenderer :=
  GdocsRenderer.renderChildren (GdocsRenderer.renderRef document document.reach)
    document.body.children { writer := openContent title {} }

/-- The calls behind the content of the body. -/
def closeContent (toChars : ℚ → List UInt8) (renderer : GdocsRenderer) (writer : JsonWriter) :
    JsonWriter :=
  let writer := writer.endArray.endObject
  (writePlaceholders toChars renderer.placeholders (writeLists renderer.lists writer)).endObject

/-- `render_gdocs_json`, over what `std::to_chars` yields.  No output is defined when a table
overflowed. -/
def renderGdocsJson (toChars : ℚ → List UInt8) (document : Document) : Option Text := do
  let title ← documentTitle document
  let renderer ← walkBody document title
  if renderer.overflowed then none
  else some (closeContent toChars renderer renderer.writer).out

end GRParse.Export
