import GRParse.Export.Items

/-!
# The export to HTML

`HtmlRenderer` makes a list of elements, each with the page that the walk was on when it was made.
The page is a cursor: an item with provenance moves it to its page, and a list or an inline group to
a page that is looked up among its texts.  The split pages are the elements sorted into a table, a
row for each page.

The trace of the walk is a list of what it came to and of what it made; the code keeps none.
-/

namespace GRParse.Export

open Grids

/-! ### Texts -/

/-- `escape_html_text`. -/
def escapeHtmlText (text : Text) : Text :=
  text.flatMap fun c =>
    if c = 0x26 then bytes "&amp;"
    else if c = 0x3c then bytes "&lt;"
    else if c = 0x3e then bytes "&gt;"
    else [c]

/-- `escape_html_attribute`. -/
def escapeHtmlAttribute (text : Text) : Text :=
  text.flatMap fun c =>
    if c = 0x26 then bytes "&amp;"
    else if c = 0x3c then bytes "&lt;"
    else if c = 0x3e then bytes "&gt;"
    else if c = 0x22 then bytes "&quot;"
    else [c]

/-- `paragraph_text`. -/
def paragraphText (text : Text) : Text :=
  (escapeHtmlText text).flatMap fun c =>
    if c = 0x0a then bytes "<br>" else if c = 0x0d then [] else [c]

/-- Python's `html.escape`. -/
def escapeFootnote (text : Text) : Text :=
  text.flatMap fun c =>
    if c = 0x26 then bytes "&amp;"
    else if c = 0x3c then bytes "&lt;"
    else if c = 0x3e then bytes "&gt;"
    else if c = 0x22 then bytes "&quot;"
    else if c = 0x27 then bytes "&#x27;"
    else [c]

/-- A text between the tags of an element. -/
def tagged (tag : String) (text : Text) : Text :=
  bytes "<" ++ bytes tag ++ bytes ">" ++ text ++ bytes "</" ++ bytes tag ++ bytes ">"

/-! ### The walk -/

/-- A step of the walk: it came to an item, or to a group that is one element, or made an element. -/
inductive Step where
  | item (prov : List ProvenanceItem)
  | group (group : GroupItem)
  | element (text : Text)
  deriving DecidableEq

/-- The members of `HtmlRenderer`, and the trace. -/
structure HtmlRenderer where
  consumed : Finset String := ∅
  gridBudget : GridBudget := {}
  elements : List Text := []
  elementPages : List ℤ := []
  currentPage : ℤ := 0
  trace : List Step := []

/-- The page of the first provenance, when it is one. -/
def firstPageOf (prov : List ProvenanceItem) : Option ℤ :=
  match prov with
  | first :: _ => if 0 < first.pageNo then some first.pageNo else none
  | [] => none

/-- The page that a text names. -/
def pageOfText (item : BaseTextItem) : Option ℤ :=
  match item with
  | .code code => firstPageOf code.prov
  | item => (textBase item).bind fun base => firstPageOf base.prov

/-- The loop of `note_group_page`, with the function itself for the groups below. -/
def noteChildren (document : Document) (note : GroupItem → ℤ → Option ℤ) :
    List String → ℤ → Option ℤ
  | [], page => some page
  | child :: children, page =>
    match document.textAt child with
    | some item =>
      match pageOfText item with
      | some found => some found
      | none => noteChildren document note children page
    | none =>
      match document.groupAt child with
      | some group => do
        let before := page
        let page ← note group page
        if page ≠ before then some page else noteChildren document note children page
      | none => noteChildren document note children page

/-- `note_group_page`: the page a group moves the cursor to. -/
def noteGroupPage (document : Document) : ℕ → GroupItem → ℤ → Option ℤ
  | 0, _, _ => none
  | fuel + 1, group, page => noteChildren document (noteGroupPage document fuel) group.children page

/-- `ordered_list`. -/
def orderedList (document : Document) (group : GroupItem) : Bool :=
  group.label = .orderedList ||
    (group.children.findSome? fun child =>
      match document.textAt child with
      | some (.listItem _ enumerated) => some enumerated
      | _ => none).getD false

/-- The labels of list groups. -/
def isList (group : GroupItem) : Bool :=
  group.label = .list || group.label = .orderedList

/-- A child of a list, with the function for the lists below. -/
def renderListChild (document : Document)
    (render : GroupItem → Finset String → Option (Text × Finset String))
    (state : Text × Finset String) (child : String) : Option (Text × Finset String) :=
  let (out, consumed) := state
  match document.groupAt child with
  | some nested =>
    if isList nested ∧ child ∉ consumed then do
      let (list, consumed) ← render nested (insert child consumed)
      some (out ++ tagged "li" list, consumed)
    else some state
  | none =>
    match document.textAt child with
    | none => some state
    | some item =>
      if child ∈ consumed then some state
      else
        match textBase item with
        | none => some (out, insert child consumed)
        | some base =>
          if excludedLayer base.contentLayer then some (out, insert child consumed)
          else some (out ++ tagged "li" (paragraphText base.text), insert child consumed)

/-- `render_list`. -/
def renderList (document : Document) : ℕ → GroupItem → Finset String →
    Option (Text × Finset String)
  | 0, _, _ => none
  | fuel + 1, group, consumed => do
    let (items, consumed) ←
      group.children.foldlM (renderListChild document (renderList document fuel)) ([], consumed)
    some (tagged (if orderedList document group then "ol" else "ul") items, consumed)

/-- The texts of an inline group, joined to one paragraph. -/
def inlineParagraph (document : Document) (children : List String) (consumed : Finset String) :
    Text × Finset String :=
  children.foldl
    (fun (paragraph, consumed) child =>
      match document.textAt child with
      | none => (paragraph, consumed)
      | some item =>
        if child ∈ consumed then (paragraph, consumed)
        else
          match (textBase item).map TextItemBase.text with
          | none | some [] => (paragraph, insert child consumed)
          | some text =>
            ((if paragraph.isEmpty then paragraph else paragraph ++ [0x20]) ++ paragraphText text,
              insert child consumed))
    ([], consumed)

/-- The attribute for a span of more than one. -/
def spanAttribute (name : String) (span : ℕ) : Text :=
  if 1 < span then bytes " " ++ bytes name ++ bytes "=\"" ++ Render.JsonWriter.decimal span ++
    bytes "\""
  else []

/-- The markup of a cell, or of an empty position. -/
def cellMarkup : Option TableCell → Text
  | none => bytes "<td></td>"
  | some cell =>
    let tag := if cell.columnHeader || cell.rowHeader || cell.rowSection then "th" else "td"
    bytes "<" ++ bytes tag ++ spanAttribute "rowspan" (rowSpanOf (some cell)) ++
      spanAttribute "colspan" (colSpanOf (some cell)) ++ bytes ">" ++ paragraphText cell.text ++
      bytes "</" ++ bytes tag ++ bytes ">"

/-- The rows of a table. -/
def tableRows (grid : Grid) : Text :=
  (emittedCells grid).flatMap fun row => tagged "tr" (row.flatMap cellMarkup)

namespace HtmlRenderer

variable (document : Document) (renderer : HtmlRenderer)

def notePage (prov : List ProvenanceItem) : HtmlRenderer :=
  { renderer with
    currentPage := (firstPageOf prov).getD renderer.currentPage
    trace := renderer.trace ++ [.item prov] }

/-- `note_group_page` as it moves the cursor. -/
def noteGroup (group : GroupItem) : Option HtmlRenderer := do
  let page ← noteGroupPage document document.depth group renderer.currentPage
  some { renderer with currentPage := page, trace := renderer.trace ++ [.group group] }

def addElement (element : Text) : HtmlRenderer :=
  if element.isEmpty then renderer
  else
    { renderer with
      elements := renderer.elements ++ [element]
      elementPages := renderer.elementPages ++ [renderer.currentPage]
      trace := renderer.trace ++ [.element element] }

def captionTexts (captions : List String) : List Text × HtmlRenderer :=
  let (texts, consumed) := document.captionTexts captions renderer.consumed
  (texts, { renderer with consumed })

def footnoteDivs (footnotes : List String) : Text × HtmlRenderer :=
  let (bases, consumed) := document.captionBases footnotes renderer.consumed
  (bases.flatMap fun base =>
    bytes "<div class=\"footnote\">" ++ escapeFootnote base.text ++ bytes "</div>",
    { renderer with consumed })

/-- The grid of a table.  A table whose numbers are out of range has none that is defined. -/
def tableGrid (data : TableData) : Grid × HtmlRenderer :=
  match Grids.tableGrid data renderer.gridBudget with
  | some sheet => (sheet.grid, { renderer with gridBudget := sheet.budget })
  | none => ([], renderer)

def renderCode (code : CodeItem) : HtmlRenderer :=
  if excludedLayer code.contentLayer then renderer
  else
    let renderer := renderer.notePage code.prov
    let out := bytes "<pre><code>" ++ escapeHtmlText code.text ++ bytes "</code></pre>"
    let (captions, renderer) := renderer.captionTexts document code.captions
    let (footnotes, renderer) := renderer.footnoteDivs document code.footnotes
    if captions.isEmpty && footnotes.isEmpty then renderer.addElement out
    else
      renderer.addElement (bytes "<figure>" ++ out ++
        (if captions.isEmpty then []
          else tagged "figcaption" (joined (captions.map paragraphText))) ++
        footnotes ++ bytes "</figure>")

/-- The element of a text that is no code. -/
def textElement (item : BaseTextItem) (base : TextItemBase) : Text :=
  match item with
  | .title _ => tagged "h1" (paragraphText base.text)
  | .sectionHeader _ level | .fieldHeading _ level =>
    let rank := Render.JsonWriter.decimal (headingRank level).toNat
    bytes "<h" ++ rank ++ bytes ">" ++ paragraphText base.text ++ bytes "</h" ++ rank ++ bytes ">"
  | .formula _ =>
    if base.text.isEmpty then
      bytes "<div class=\"formula-not-decoded\">Formula not decoded</div>"
    else bytes "<div class=\"formula\">" ++ escapeHtmlText base.text ++ bytes "</div>"
  | .listItem _ _ => tagged "ul" (tagged "li" (paragraphText base.text))
  | _ => if base.text.isEmpty then [] else tagged "p" (paragraphText base.text)

def renderText (item : BaseTextItem) : HtmlRenderer :=
  match item with
  | .code code => renderer.renderCode document code
  | item =>
    match textBase item with
    | none => renderer
    | some base =>
      if excludedLayer base.contentLayer then renderer
      else (renderer.notePage base.prov).addElement (textElement item base)

def renderTable (table : TableItem) : HtmlRenderer :=
  if excludedLayer table.contentLayer then renderer
  else
    let renderer := renderer.notePage table.prov
    let (captions, renderer) := renderer.captionTexts document table.captions
    let (footnotes, renderer) := renderer.footnoteDivs document table.footnotes
    let (grid, renderer) := renderer.tableGrid table.data
    if grid.isEmpty && captions.isEmpty then renderer.addElement footnotes
    else
      renderer.addElement (bytes "<table>" ++
        (if captions.isEmpty then [] else tagged "caption" (joined (captions.map paragraphText))) ++
        tagged "tbody" (tableRows grid) ++ bytes "</table>" ++ footnotes)

/-- The captions of a picture, with its description in the last one. -/
def figureCaptions (description : Text) : List Text → Text
  | [] => []
  | [caption] =>
    tagged "figcaption" (paragraphText caption ++
      if description.isEmpty then [] else tagged "p" (paragraphText description))
  | caption :: captions =>
    tagged "figcaption" (paragraphText caption) ++ figureCaptions description captions

def renderPicture (picture : PictureItem) : HtmlRenderer :=
  if excludedLayer picture.contentLayer then renderer
  else
    let renderer := renderer.notePage picture.prov
    let (captions, renderer) := renderer.captionTexts document picture.captions
    let uri := (picture.image.map ImageRef.uri).getD []
    let image :=
      if uri.isEmpty then bytes "<!-- image -->"
      else bytes "<img src=\"" ++ escapeHtmlAttribute uri ++ bytes "\" alt=\"" ++
        escapeHtmlAttribute (captions.headD (bytes "Image")) ++ bytes "\"/>"
    let description := Chunking.trimmed (pictureDescription picture)
    let (footnotes, renderer) := renderer.footnoteDivs document picture.footnotes
    renderer.addElement (bytes "<figure>" ++ image ++ figureCaptions description captions ++
      (if captions.isEmpty && !description.isEmpty then tagged "p" (paragraphText description)
        else []) ++ footnotes ++ bytes "</figure>")

/-- `render_children`, with `render_ref`. -/
def renderChildren (render : String → HtmlRenderer → Option HtmlRenderer) (children : List String)
    (renderer : HtmlRenderer) : Option HtmlRenderer :=
  children.foldlM (fun renderer child => render child renderer) renderer

def renderGroup (render : String → HtmlRenderer → Option HtmlRenderer) (group : GroupItem) :
    Option HtmlRenderer :=
  if excludedLayer group.contentLayer then some renderer
  else if isList group then do
    let renderer ← renderer.noteGroup document group
    let (list, consumed) ← renderList document document.depth group renderer.consumed
    some ({ renderer with consumed }.addElement list)
  else if group.label = .inline then do
    let renderer ← renderer.noteGroup document group
    let (paragraph, consumed) := inlineParagraph document group.children renderer.consumed
    let renderer := { renderer with consumed }
    some (if paragraph.isEmpty then renderer else renderer.addElement (tagged "p" paragraph))
  else renderChildren render group.children renderer

/-- `render_ref`. -/
def renderRef : ℕ → String → HtmlRenderer → Option HtmlRenderer
  | 0, _, _ => none
  | fuel + 1, raw, renderer =>
    if raw ∈ renderer.consumed then some renderer
    else
      let renderer := { renderer with consumed := insert raw renderer.consumed }
      match parseRef raw with
      | .text index =>
        some ((document.texts[index]?).elim renderer (renderer.renderText document))
      | .table index =>
        some ((document.tables[index]?).elim renderer (renderer.renderTable document))
      | .picture index =>
        some ((document.pictures[index]?).elim renderer (renderer.renderPicture document))
      | .group index =>
        (document.groups[index]?).elim (some renderer)
          (renderer.renderGroup document (renderRef fuel))
      | .keyValue _ => some (renderer.addElement (bytes "<!-- missing-key-value-item -->"))
      | .form _ => some (renderer.addElement (bytes "<!-- missing-form-item -->"))
      | .fieldRegion index =>
        (document.fieldRegions[index]?).elim (some renderer)
          (renderChildren (renderRef fuel) · renderer)
      | .fieldItem index =>
        (document.fieldItems[index]?).elim (some renderer)
          (renderChildren (renderRef fuel) · renderer)
      | .unknown => some renderer

/-- The walk from the body. -/
def walk : Option HtmlRenderer :=
  renderChildren (renderRef document document.depth) document.body.children {}

end HtmlRenderer

/-! ### Pages -/

/-- `skeleton_open`. -/
def skeletonOpen (document : Document) : Text :=
  bytes "<!DOCTYPE html>\n<html>\n<head><meta charset=\"UTF-8\"/><title>" ++
    escapeHtmlText document.name ++ bytes "</title></head>\n<body>\n"

/-- `render`. -/
def htmlText (document : Document) (elements : List Text) : Text :=
  skeletonOpen document ++ (elements.flatMap fun element => element ++ [0x0a]) ++
    bytes "</body>\n</html>"

def renderHtml (document : Document) : Option Text :=
  (HtmlRenderer.walk document).map fun renderer => htmlText document renderer.elements

/-- The least page of the page map, for a document without provenance. -/
def lonePage (document : Document) : ℤ :=
  let least := document.pages.foldl
    (fun first entry => if first = 0 ∨ entry.1 < first then entry.1 else first) 0
  if least ≤ 0 then 1 else least

/-- The page of the elements that were made before any page was seen. -/
def firstPage (document : Document) (elementPages : List ℤ) : ℤ :=
  (elementPages.find? fun page => 0 < page).getD (lonePage document)

/-- The pages of the elements, once those without one have joined the first. -/
def settledPages (document : Document) (elementPages : List ℤ) : List ℤ :=
  elementPages.map fun page => if page = 0 then firstPage document elementPages else page

/-- The pages in the order in which they come first. -/
def pageOrder (pages : List ℤ) : List ℤ :=
  pages.foldl (fun order page => if page ∈ order then order else order ++ [page]) []

/-- The rows of the split pages: each page with its elements. -/
def pageRows (document : Document) (renderer : HtmlRenderer) : List (ℤ × List Text) :=
  let pages := settledPages document renderer.elementPages
  (pageOrder pages).map fun page =>
    (page, ((renderer.elements.zip pages).filter fun entry => entry.2 = page).map Prod.fst)

/-- The image of a page. -/
def pageFigure (document : Document) (page : ℤ) : Text :=
  let uri := (((document.pages.find? fun entry => entry.1 = page).bind Prod.snd).map
    ImageRef.uri).getD []
  if uri.isEmpty then bytes "<figure>no page-image found</figure>\n"
  else bytes "<figure><img src=\"" ++ escapeHtmlAttribute uri ++ bytes "\"></figure>\n"

def splitPageText (document : Document) (rows : List (ℤ × List Text)) : Text :=
  skeletonOpen document ++ bytes "<table>\n<tbody>\n" ++
    (rows.flatMap fun row =>
      bytes "<tr>\n<td>\n" ++ pageFigure document row.1 ++
        bytes "</td>\n<td>\n<div class='page'>\n" ++ [0x0a].intercalate row.2 ++
        bytes "\n</div>\n</td>\n</tr>\n") ++
    bytes "</tbody>\n</table>\n</body>\n</html>"

/-- `render_split_page`. -/
def renderSplitPage (document : Document) : Option Text :=
  (HtmlRenderer.walk document).map fun renderer =>
    splitPageText document (pageRows document renderer)

end GRParse.Export
