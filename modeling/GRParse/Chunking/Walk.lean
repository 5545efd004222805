import GRParse.Chunking.Tree
import GRParse.Chunking.WorkChunk
import Mathlib.Data.Finset.Union

/-!
# The walk of the chunker

The hierarchical chunker walks the body of a document depth first and emits one chunk for each
text, list, table and picture.  An item may be reached over several routes: as a child, from a
list that is flattened, and as a caption or footnote of a floating item.  Three sets keep track
of what was reached: the references the walk visited, those that some floating item names, and
those that a floating item has claimed.
-/

namespace GRParse.Chunking

/-! ### Texts -/

/-- The bytes that `trimmed` takes off. -/
def isSpace (byte : UInt8) : Bool :=
  byte ∈ [0x20, 0x09, 0x0D, 0x0A, 0x0C, 0x0B]

def trimmed (text : List UInt8) : List UInt8 :=
  (text.dropWhile isSpace).rdropWhile isSpace

def isBlank (text : List UInt8) : Bool :=
  (trimmed text).isEmpty

def join (parts : List (List UInt8)) : List UInt8 :=
  [kNewline].intercalate parts

/-- What a line of a list starts with. -/
def listMarker (label : GroupLabel) (position : ℕ) : List UInt8 :=
  if label = .orderedList then
    (Nat.toDigits 10 position).map (fun digit => .ofNat digit.toNat) ++ [0x2E, 0x20]
  else [0x2D, 0x20]

/-- What stands for an image by default. -/
def kImagePlaceholder : List UInt8 :=
  [0x21, 0x5B, 0x49, 0x4D, 0x41, 0x47, 0x45, 0x5D]

/-! ### The walker -/

/-- Where the text of an offset comes from. -/
inductive TextSource where
  | unspecified
  | digitalPdf
  | ocr
  deriving DecidableEq

/-- The span of a text item in the text of the document. -/
structure OffsetEntry where
  start : ℕ := 0
  stop : ℕ := 0
  source : TextSource := .unspecified

/-- What the walk is given besides the document: the offsets of text items, how a table is
written, which spends from a budget for all the tables of the document, and whether and how an
image is. -/
structure ChunkOptions (Data Budget : Type) where
  offsets : String → Option OffsetEntry
  serializeTable : Data → Budget → List UInt8 × Budget
  useMarkdownImages : Bool := false
  imagePlaceholder : Option (List UInt8) := none

/-- The state of the walk. -/
structure Walker (Budget : Type) where
  visited : Finset String := ∅
  claimed : Finset String := ∅
  gridBudget : Budget
  trail : List (ℤ × List UInt8) := []
  chunks : List WorkChunk := []
  tooDeep : ℕ := 0

/-- `record_heading`: a heading shadows those at its level and below. -/
def recordHeading (trail : List (ℤ × List UInt8)) (level : ℤ) (text : List UInt8) :
    List (ℤ × List UInt8) :=
  let kept := trail.rdropWhile fun entry => level ≤ entry.1
  if isBlank text then kept else kept ++ [(level, text)]

variable {Data Budget : Type} (document : Document Data) (options : ChunkOptions Data Budget)

/-- The child whose text is the text of a heading that has none of its own. -/
def foldedChild (base : TextItemBase) : Option (String × List UInt8) :=
  if isBlank base.text then
    match base.children with
    | [ref] =>
      match textAt document ref with
      | some (.text child) | some (.formula child) | some (.code child ..) =>
        some (ref, child.text)
      | _ => none
    | _ => none
  else none

def richHeadingText (base : TextItemBase) : List UInt8 :=
  (foldedChild document base).elim base.text (·.2)

/-- The lesser of two confidences, if there are any. -/
def lesserConfidence (least : Option ℚ) (confidence : ℚ) : Option ℚ :=
  match least with
  | none => some confidence
  | some other => some (if confidence < other then confidence else other)

/-- The offsets of a text item widen the span of its chunk. -/
def absorbOffsets (chunk : WorkChunk) (ref : String) : WorkChunk :=
  match options.offsets ref with
  | none => { chunk with offsetsComplete := false }
  | some entry =>
    { chunk with
      start := if chunk.offsetsKnown then min chunk.start entry.start else entry.start
      stop := if chunk.offsetsKnown then max chunk.stop entry.stop else entry.stop
      offsetsKnown := true
      sawDigital := chunk.sawDigital || entry.source = .digitalPdf
      sawOcr := chunk.sawOcr || entry.source = .ocr
      -- Whether the span is exact is found out when the chunk is complete.
      offsetsExact := false
      exact_span := by simp }

/-- What `absorb` does to the chunk. -/
def absorbItem (chunk : WorkChunk) (ref : String) : WorkChunk :=
  let chunk := { chunk with docItems := chunk.docItems ++ [ref] }
  match viewOf document ref with
  | none => chunk
  | some (view, isText) =>
    let chunk := { chunk with
      pages := chunk.pages ∪ (view.prov.filter (0 < ·)).toFinset
      minConfidence := view.source.foldl lesserConfidence chunk.minConfidence }
    if isText then
      let language := (textAt document ref).bind (languageOf document)
      absorbOffsets options { chunk with
        languages := language.elim chunk.languages (insert · chunk.languages)
        languageUnknown := chunk.languageUnknown || language.isNone } ref
    else chunk

/-- What `absorb` does to the walker. -/
def Walker.visit (walker : Walker Budget) (ref : String) : Walker Budget :=
  { walker with visited := insert ref walker.visited }

def trailTexts (walker : Walker Budget) : List (List UInt8) :=
  walker.trail.map (·.2)

/-- A caption that no floating item has claimed is absorbed. -/
def captionText (s : Walker Budget × WorkChunk × List (List UInt8)) (ref : String) :
    Walker Budget × WorkChunk × List (List UInt8) :=
  let (walker, chunk, texts) := s
  match textAt document ref with
  | none => s
  | some text =>
    if ref ∈ walker.claimed then s
    else
      ({ walker with claimed := insert ref walker.claimed }.visit ref,
        absorbItem document options chunk ref,
        if isBlank (textOf text) then texts else texts ++ [textOf text])

/-- `caption_texts`. -/
def captionTexts (walker : Walker Budget) (chunk : WorkChunk) (captions : List String) :
    Walker Budget × WorkChunk × List (List UInt8) :=
  captions.foldl (captionText document options) (walker, chunk, [])

/-- The text of a chunk is set when all of its items are absorbed. -/
def WorkChunk.withText (chunk : WorkChunk) (text : List UInt8) : WorkChunk :=
  { chunk with
    text
    offsetsExact := false
    exact_span := by simp }

/-- `mark_exact`. -/
def markExact (chunk : WorkChunk) : WorkChunk :=
  { chunk with
    offsetsExact := chunk.offsetsKnown && chunk.offsetsComplete && chunk.docItems.length = 1 &&
      chunk.start ≤ chunk.stop && chunk.stop - chunk.start = (decodeUtf8 chunk.text).length
    exact_span := by simp +contextual }

/-- A chunk without text is not emitted. -/
def Walker.emit (walker : Walker Budget) (chunk : WorkChunk) : Walker Budget :=
  if isBlank chunk.text then walker else { walker with chunks := walker.chunks ++ [chunk] }

/-! ### Single items -/

/-- The chunk of a text; the footnotes of a code item follow it. -/
def textChunk (walker : Walker Budget) (ref : String) (item : BaseTextItem) :
    Walker Budget × WorkChunk :=
  let walker := walker.visit ref
  let chunk := absorbItem document options { headings := trailTexts walker } ref
  match item with
  | .code item _ footnotes =>
    let (walker, chunk, lines) := captionTexts document options walker chunk footnotes
    (walker, chunk.withText (join (item.text :: lines)))
  | item => (walker, chunk.withText (textOf item))

/-- `emit_text`. -/
def emitText (walker : Walker Budget) (ref : String) (item : BaseTextItem) : Walker Budget :=
  if ref ∈ captionRefs document then walker
  else
    match item with
    | .title base => { walker with trail := recordHeading walker.trail 0 base.text }
    | .sectionHeader level base =>
      { walker with
        trail := recordHeading walker.trail level (richHeadingText document base)
        -- The child that speaks for its heading is not walked on its own.
        visited := (foldedChild document base).elim walker.visited (insert ·.1 walker.visited) }
    | item =>
      let (walker, chunk) := textChunk document options walker ref item
      walker.emit (markExact chunk)

/-- The chunk of a table: its captions, its body and its footnotes. -/
def tableChunk (walker : Walker Budget) (ref : String) (table : TableItem Data) :
    Walker Budget × WorkChunk :=
  let walker := walker.visit ref
  let chunk := absorbItem document options { headings := trailTexts walker } ref
  let (walker, chunk, captions) := captionTexts document options walker chunk table.captions
  let (body, gridBudget) := options.serializeTable table.data walker.gridBudget
  let (walker, chunk, footnotes) :=
    captionTexts document options { walker with gridBudget } { chunk with captions }
      table.footnotes
  (walker, chunk.withText
    (join (captions ++ (if body.isEmpty then [] else [body]) ++ footnotes)))

/-- The chunk of a picture: what stands for its image, its footnotes and its captions. -/
def pictureChunk (walker : Walker Budget) (ref : String) (picture : PictureItem) :
    Walker Budget × WorkChunk :=
  let walker := walker.visit ref
  let chunk := absorbItem document options { headings := trailTexts walker } ref
  let (walker, chunk, captions) := captionTexts document options walker chunk picture.captions
  let placeholder := options.imagePlaceholder.getD kImagePlaceholder
  let image := if options.useMarkdownImages && !placeholder.isEmpty then [placeholder] else []
  let (walker, chunk, footnotes) :=
    captionTexts document options walker { chunk with captions } picture.footnotes
  (walker, chunk.withText (join (image ++ footnotes ++ captions)))

/-! ### Lists -/

/-- A list while it is being flattened. -/
structure Flat (Budget : Type) where
  walker : Walker Budget
  chunk : WorkChunk
  lines : List (List UInt8) := []
  floating : List String := []

/-- The subtree is left out. -/
def Flat.leaveOut (flat : Flat Budget) : Flat Budget :=
  { flat with walker := { flat.walker with tooDeep := flat.walker.tooDeep + 1 } }

/-- A nested group flattens into the same chunk. -/
def Flat.enter (flat : Flat Budget) (ref : String) : Flat Budget :=
  { flat with
    walker := flat.walker.visit ref
    chunk := { flat.chunk with docItems := flat.chunk.docItems ++ [ref] } }

def Flat.float (flat : Flat Budget) (ref : String) : Flat Budget :=
  { flat with floating := flat.floating ++ [ref] }

def Flat.absorb (flat : Flat Budget) (ref : String) : Flat Budget :=
  { flat with
    walker := flat.walker.visit ref
    chunk := absorbItem document options flat.chunk ref }

/-- A text without ink makes no line. -/
def Flat.line (flat : Flat Budget) (marker body : List UInt8) : Flat Budget :=
  if isBlank body then flat else { flat with lines := flat.lines ++ [marker ++ body] }

/-- Whether flattening passes over a child. -/
def Flat.passes (flat : Flat Budget) (ref : String) : Bool :=
  ref ∈ flat.walker.visited || excluded (layerOf document ref)

mutual

/-- `collect_list_entries`, with the number of levels that may still be entered. -/
def collectListEntries : ℕ → GroupItem → Flat Budget → Flat Budget
  | 0, _, flat => flat.leaveOut
  | levels + 1, group, flat =>
    (group.children.foldl (fun (flat, position) ref =>
      if flat.passes document ref then (flat, position)
      else
        match groupAt document ref, textAt document ref with
        | some nested, _ => (collectListEntries levels nested (flat.enter ref), position)
        | none, none => (flat.float ref, position)
        | none, some text =>
          let position := if isBlank (textOf text) then position else position + 1
          let flat := (flat.absorb document options ref).line
            (listMarker group.label position) (textOf text)
          (collectItemChildren levels text flat, position)) (flat, 0)).1

/-- `collect_item_children`. -/
def collectItemChildren : ℕ → BaseTextItem → Flat Budget → Flat Budget
  | 0, _, flat => flat.leaveOut
  | levels + 1, item, flat =>
    ((textBase item).elim [] (·.children)).foldl (fun flat ref =>
      if flat.passes document ref then flat
      else
        match groupAt document ref, textAt document ref with
        | some nested, _ => collectListEntries levels nested (flat.enter ref)
        | none, none => flat.float ref
        | none, some text =>
          collectItemChildren levels text
            ((flat.absorb document options ref).line [] (textOf text))) flat

end

/-- The list, flattened. -/
def flattened (levels : ℕ) (walker : Walker Budget) (ref : String) (group : GroupItem) :
    Flat Budget :=
  collectListEntries document options levels group
    { walker, chunk := { headings := trailTexts walker, docItems := [ref] } }

/-! ### The walk -/

/-- The walk comes to a reference: what it emits there, and what it walks next. -/
def step (levels : ℕ) (walker : Walker Budget) (ref : String) : Walker Budget × List String :=
  if ref ∈ walker.visited then (walker, [])
  else
    let walker := walker.visit ref
    if excluded (layerOf document ref) then (walker, [])
    else
      match groupAt document ref, textAt document ref, tableAt document ref,
        pictureAt document ref with
      | some group, _, _, _ =>
        if listGroup group then
          let flat := flattened document options levels walker ref group
          (flat.walker.emit (flat.chunk.withText (join flat.lines)), flat.floating)
        else (walker, group.children)
      | none, some text, _, _ =>
        (emitText document options walker ref text, (textBase text).elim [] (·.children))
      | none, none, some table, _ =>
        let (walker, chunk) := tableChunk document options walker ref table
        (walker.emit chunk, [])
      | none, none, none, some picture =>
        let (walker, chunk) := pictureChunk document options walker ref picture
        (walker.emit chunk, [])
      | none, none, none, none => (walker, [])

/-- `walk`, with the number of levels that may still be entered. -/
def walk : ℕ → Walker Budget → String → Walker Budget
  | 0, walker, _ => { walker with tooDeep := walker.tooDeep + 1 }
  | levels + 1, walker, ref =>
    let (walker, next) := step document options levels walker ref
    next.foldl (walk levels) walker

def kMaximumNesting : ℕ := 256

/-- A chunk without a text is in the language of the document. -/
def declareLanguage (chunk : WorkChunk) : WorkChunk :=
  if chunk.languages = ∅ ∧ chunk.languageUnknown = false then
    { chunk with languages := document.language.elim ∅ ({·}) }
  else chunk

/-- The chunks of a document. -/
def run (gridBudget : Budget) : List WorkChunk :=
  (walk document options (kMaximumNesting + 1) { gridBudget } "#/body").chunks.map
    (declareLanguage document)

end GRParse.Chunking
