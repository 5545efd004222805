import GRParse.Export.DocsApi
import GRParse.Render.Blocks

/-!
# The payload of the Docs API as a value

What the calls of the export write for each part of the payload.  A paragraph says its text in one
run, its style and its place in a list; a table has its cells row by row; the registries follow the
body.
-/

namespace GRParse.Export

open Chunking Grids Json Render JsonWriter

/-! ### Values -/

def textValue (text : Text) : Value (List ℕ) :=
  .string (decodeUtf8 text)

def intValue (value : ℤ) : Value (List ℕ) :=
  .number value

/-- A member of an object, under an ASCII name. -/
def named (name : String) (value : Value (List ℕ)) : List ℕ × Value (List ℕ) :=
  (decodeUtf8 (bytes name), value)

def textStyleValue (monospace : Bool) : Value (List ℕ) :=
  .object <|
    if monospace then
      [named "weightedFontFamily" <| .object
        [named "fontFamily" (textValue kCodeFontFamily), named "weight" (intValue kRegularWeight)]]
    else []

def bulletValue (bullet : Bullet) : Value (List ℕ) :=
  .object
    [named "listId" (textValue (gdocsListId bullet.list)),
      named "nestingLevel" (intValue bullet.nestingLevel)]

/-- The one run of a paragraph. -/
def runValue (paragraph : Paragraph) : Value (List ℕ) :=
  .object [named "textRun" <| .object
    [named "content" (textValue (gdocsRunContent paragraph.text)),
      named "textStyle" (textStyleValue paragraph.monospace)]]

def paragraphValue (paragraph : Paragraph) : Value (List ℕ) :=
  .object [named "paragraph" <| .object <|
    [named "elements" (.array [runValue paragraph]),
      named "paragraphStyle" (.object [named "namedStyleType" (textValue paragraph.namedStyle)])] ++
      paragraph.bullet.toList.map fun bullet => named "bullet" (bulletValue bullet)]

/-- The paragraph in a cell of a table. -/
def cellParagraph (cell : Option TableCell) : Paragraph :=
  .prose (cell.elim [] TableCell.text)

def tableCellValue (cell : Option TableCell) : Value (List ℕ) :=
  .object
    [named "content" (.array [paragraphValue (cellParagraph cell)]),
      named "tableCellStyle" <| .object
        [named "rowSpan" (intValue (rowSpanOf cell)), named "columnSpan" (intValue (colSpanOf cell))]]

def tableRowValue (row : List (Option TableCell)) : Value (List ℕ) :=
  .object [named "tableCells" (.array (row.map tableCellValue))]

def tableValue (grid : Grid) : Value (List ℕ) :=
  .object [named "table" <| .object
    [named "rows" (intValue grid.length), named "columns" (intValue (columnsOf grid)),
      named "tableRows" (.array ((emittedCells grid).map tableRowValue))]]

def Element.value : Element → Value (List ℕ)
  | .paragraph written => paragraphValue written
  | .picture _ caption => paragraphValue (.prose caption)
  | .table grid => tableValue grid

def levelValue (enumerated : Bool) : Value (List ℕ) :=
  .object
    [if enumerated then named "glyphType" (textValue kDecimalGlyph)
      else named "glyphSymbol" (textValue kBulletGlyph)]

/-- The entry of the list registry for a list and its index. -/
def listMember (entry : List Bool × ℕ) : List ℕ × Value (List ℕ) :=
  (decodeUtf8 (gdocsListId entry.2), .object [named "listProperties" <| .object
    [named "nestingLevels" (.array (entry.1.map levelValue))]])

/-- A size, by the number that its digits spell. -/
def sizeValue (toChars : ℚ → List UInt8) (value : Double) : Value (List ℕ) :=
  .number ((numberValue (canonicalDouble toChars value)).getD 0)

def placeholderValue (toChars : ℚ → List UInt8) (placeholder : Placeholder) : Value (List ℕ) :=
  .object
    [named "selfRef" (textValue placeholder.selfRef),
      named "mimeType" (textValue placeholder.mimetype),
      named "size" (.object
        [named "width" (sizeValue toChars placeholder.width),
          named "height" (sizeValue toChars placeholder.height)]),
      named "contentOrdinal" (intValue placeholder.contentIndex)]

/-- What the payload says: its title, the elements of the body and the two registries. -/
structure Payload where
  title : Text
  content : List Element
  lists : List (List Bool)
  placeholders : List Placeholder

def Payload.value (toChars : ℚ → List UInt8) (payload : Payload) : Value (List ℕ) :=
  .object
    [named "title" (textValue payload.title),
      named "body" (.object [named "content" (.array (payload.content.map Element.value))]),
      named "lists" (.object (payload.lists.zipIdx.map listMember)),
      named "inlineImagePlaceholders"
        (.array (payload.placeholders.map (placeholderValue toChars)))]

/-! ### The calls -/

theorem writes_memberString (name : String) (text : Text) :
  WritesMembers [named name (textValue text)] (memberString (bytes name) text)
  := (writes_valueString text).member _

theorem writes_memberInt (name : String) (value : ℤ) :
  WritesMembers [named name (intValue value)] (memberInt (bytes name) value)
  := (writes_printedInt value).member _

theorem writes_textStyle (monospace : Bool) :
  Writes (textStyleValue monospace) (writeTextStyle monospace)
  := by
  cases monospace with
  | false => exact writesMembers_nil.object
  | true =>
    have hfamily := (writes_memberString "fontFamily" kCodeFontFamily).append
      (writes_memberInt "weight" kRegularWeight)
    exact (hfamily.object.member (bytes "weightedFontFamily")).object

theorem writes_bullet (bullet : Bullet) :
  WritesMembers [named "bullet" (bulletValue bullet)] (writeBullet bullet)
  := by
  have hmembers := (writes_memberString "listId" (gdocsListId bullet.list)).append
    (writes_memberInt "nestingLevel" bullet.nestingLevel)
  exact hmembers.object.member (bytes "bullet")

theorem writes_paragraph (paragraph : Paragraph) :
  Writes (paragraphValue paragraph) (writeParagraph paragraph)
  := by
  have hrun : Writes (runValue paragraph) _ :=
    (((writes_memberString "content" (gdocsRunContent paragraph.text)).append
      ((writes_textStyle paragraph.monospace).member (bytes "textStyle"))).object.member
        (bytes "textRun")).object
  have helements := hrun.element.array.member (bytes "elements")
  have hstyle := (writes_memberString "namedStyleType" paragraph.namedStyle).object.member
    (bytes "paragraphStyle")
  cases hbullet : paragraph.bullet with
  | none =>
    rw [paragraphValue, hbullet]
    have h := ((helements.append hstyle).object.member (bytes "paragraph")).object
    rw [show writeParagraph paragraph = _ by unfold writeParagraph; rw [hbullet]]
    exact h
  | some bullet =>
    rw [paragraphValue, hbullet]
    have h := (((helements.append hstyle).append (writes_bullet bullet)).object.member
      (bytes "paragraph")).object
    rw [show writeParagraph paragraph = _ by unfold writeParagraph; rw [hbullet]]
    exact h

theorem writes_tableCell (cell : Option TableCell) :
  Writes (tableCellValue cell) (writeTableCell cell)
  := by
  have hcontent := (writes_paragraph (cellParagraph cell)).element.array.member (bytes "content")
  have hstyle := ((writes_memberInt "rowSpan" (rowSpanOf cell)).append
    (writes_memberInt "columnSpan" (colSpanOf cell))).object.member (bytes "tableCellStyle")
  exact (hcontent.append hstyle).object

theorem writes_tableRow (row : List (Option TableCell)) :
  Writes (tableRowValue row) (writeTableRow row)
  := by
  have hcells : WritesElements (row.map tableCellValue) (fun writer =>
      row.foldl (fun writer cell => writeTableCell cell writer) writer) :=
    writesElements_foldl fun cell _ => writes_tableCell cell
  exact (hcells.array.member (bytes "tableCells")).object

theorem writes_table (grid : Grid) :
  Writes (tableValue grid) (writeTable grid)
  := by
  have hrows : WritesElements ((emittedCells grid).map tableRowValue) (fun writer =>
      (emittedCells grid).foldl (fun writer row => writeTableRow row writer) writer) :=
    writesElements_foldl fun row _ => writes_tableRow row
  have hmembers := ((writes_memberInt "rows" grid.length).append
    (writes_memberInt "columns" (columnsOf grid))).append
      (hrows.array.member (bytes "tableRows"))
  exact (hmembers.object.member (bytes "table")).object

/-- An element is written as its value. -/
theorem writes_element (element : Element) :
  Writes element.value element.write
  := by
  cases element with
  | paragraph written => exact writes_paragraph written
  | picture item caption => exact writes_paragraph (.prose caption)
  | table grid => exact writes_table grid

theorem writes_level (enumerated : Bool) :
  Writes (levelValue enumerated) (writeLevel enumerated)
  := by
  cases enumerated with
  | false => exact (writes_memberString "glyphSymbol" kBulletGlyph).object
  | true => exact (writes_memberString "glyphType" kDecimalGlyph).object

theorem writes_list (entry : List Bool × ℕ) :
  WritesMembers [listMember entry] (writeList · entry)
  := by
  have hlevels : WritesElements (entry.1.map levelValue) (fun writer =>
      entry.1.foldl (fun writer enumerated => writeLevel enumerated writer) writer) :=
    writesElements_foldl fun enumerated _ => writes_level enumerated
  have hproperties := (hlevels.array.member (bytes "nestingLevels")).object.member
    (bytes "listProperties")
  exact hproperties.object.member (gdocsListId entry.2)

theorem writes_lists (lists : List (List Bool)) :
  WritesMembers [named "lists" (.object (lists.zipIdx.map listMember))] (writeLists lists)
  := by
  have hlists : WritesMembers (lists.zipIdx.map listMember)
      (fun writer => lists.zipIdx.foldl writeList writer) :=
    writesMembers_foldl fun entry _ => writes_list entry
  exact hlists.object.member (bytes "lists")

/-! ### Sizes -/

/-- A number: not infinite, and a number at all. -/
def Finite : Double → Prop
  | .nan | .infinity _ => False
  | .zero _ | .finite _ _ => True

/-- `std::to_chars` yields the scientific form of some digits. -/
def SpellsDigits (toChars : ℚ → List UInt8) : Prop :=
  ∀ value, value ≠ 0 → ∃ number : Scientific, toChars value = number.text

variable {toChars : ℚ → List UInt8}

theorem exists_numberValue (h : SpellsDigits toChars) {value : Double} (hfinite : Finite value) :
  ∃ number, numberValue (canonicalDouble toChars value) = some number
  := by
  cases value with
  | nan => exact hfinite.elim
  | infinity negative => exact hfinite.elim
  | zero negative =>
    cases negative with
    | false => exact ⟨_, rfl⟩
    | true => exact ⟨_, rfl⟩
  | finite value nonzero =>
    obtain ⟨number, hnumber⟩ := h value nonzero
    exact ⟨_, ((canonicalNumbers_denote toChars).2 value nonzero number hnumber).1⟩

theorem writes_memberDouble (h : SpellsDigits toChars) (name : String) {value : Double}
    (hfinite : Finite value) :
  WritesMembers [named name (sizeValue toChars value)] (memberDouble toChars (bytes name) value)
  := by
  obtain ⟨number, hnumber⟩ := exists_numberValue h hfinite
  rw [sizeValue, hnumber]
  exact (writes_valueRaw (scalarValue_number hnumber)).member _

theorem writes_placeholder (h : SpellsDigits toChars) {placeholder : Placeholder}
    (hwidth : Finite placeholder.width) (hheight : Finite placeholder.height) :
  Writes (placeholderValue toChars placeholder) (writePlaceholder toChars · placeholder)
  := by
  have hsize := ((writes_memberDouble h "width" hwidth).append
    (writes_memberDouble h "height" hheight)).object.member (bytes "size")
  exact ((((writes_memberString "selfRef" placeholder.selfRef).append
    (writes_memberString "mimeType" placeholder.mimetype)).append hsize).append
      (writes_memberInt "contentOrdinal" placeholder.contentIndex)).object

theorem writes_placeholders (h : SpellsDigits toChars) {placeholders : List Placeholder}
    (hfinite : ∀ placeholder ∈ placeholders, Finite placeholder.width ∧ Finite placeholder.height) :
  WritesMembers
    [named "inlineImagePlaceholders" (.array (placeholders.map (placeholderValue toChars)))]
    (writePlaceholders toChars placeholders)
  := by
  have hplaceholders : WritesElements (placeholders.map (placeholderValue toChars))
      (fun writer => placeholders.foldl (writePlaceholder toChars) writer) := by
    apply writesElements_foldl
    intro placeholder hplaceholder
    obtain ⟨hwidth, hheight⟩ := hfinite placeholder hplaceholder
    exact writes_placeholder h hwidth hheight
  exact hplaceholders.array.member (bytes "inlineImagePlaceholders")

end GRParse.Export
