import GRParse.Assembly.ListMarker
import GRParse.Assembly.PageItems
import GRParse.Lib.Joined

/-!
# Text rows

What a text item shows besides its raw text: its label, its list marker, the text without the
marker and the runs of one font.  Beside every item goes a row that places its text in the plain
text of the document: one cursor counts the characters of the items before it and the newline
between two of them.

The walk over a page is the one of the page's items, with the rows kept along.  The attribution
of an item to the engines that read it is left out.
-/

namespace GRParse.Assembly

open Chunking ListMarker Joined List

/-! ### What the source says of a line -/

inductive TextOrigin where
  | ocr
  | digitalPdf
  deriving DecidableEq

inductive PageSource where
  | ocr
  | digitalPdf
  | merged
  deriving DecidableEq

/-- The fields of a line besides its text and its polygon. -/
structure LineFacts where
  confidence : Option ℚ := none
  origin : Option TextOrigin := none
  fontName : Option String := none
  fontSizePt : Option ℚ := none

/-- A page with the facts of its lines, by their indices. -/
structure SourcePage extends OcrPage where
  source : PageSource := .ocr
  facts : List LineFacts := []

def SourcePage.factsOf (page : SourcePage) (line : LineRef) : LineFacts :=
  page.facts.getD line.2 {}

/-- `text_source_for`. -/
def textSourceFor (page : SourcePage) (line : LineRef) : TextOrigin :=
  match (page.factsOf line).origin with
  | some origin => origin
  | none => if page.source = .digitalPdf then .digitalPdf else .ocr

/-! ### Labels -/

inductive DocItemLabel where
  | caption
  | checkboxSelected
  | checkboxUnselected
  | code
  | documentIndex
  | footnote
  | form
  | formula
  | keyValueRegion
  | listItem
  | pageFooter
  | pageHeader
  | sectionHeader
  | text
  | title
  deriving DecidableEq

/-- The labels of the detectors' vocabularies. -/
def kLabels : List (String × DocItemLabel) :=
  [("caption", .caption), ("checkbox_selected", .checkboxSelected),
    ("checkbox_unselected", .checkboxUnselected), ("code", .code),
    ("document_index", .documentIndex), ("footnote", .footnote), ("form", .form),
    ("formula", .formula), ("key_value_region", .keyValueRegion), ("list", .listItem),
    ("list_item", .listItem), ("page_footer", .pageFooter), ("page_header", .pageHeader),
    ("section_header", .sectionHeader), ("title", .title)]

/-- The labels that keep `text` by design. -/
def kStructuralLabels : List String :=
  ["table", "picture", "text", ""]

/-- `label_for_region`: the label, and whether the region's is one of the known ones. -/
def labelForRegion (label : String) : DocItemLabel × Bool :=
  match kLabels.lookup label with
  | some found => (found, true)
  | none => (.text, label ∈ kStructuralLabels)

/-- The label of a block's item. -/
def TextBlock.label (block : TextBlock) : DocItemLabel :=
  block.region.elim .text fun region => (labelForRegion region.1.label).1

/-- The raw label that an item keeps where it is unknown. -/
def TextBlock.labelRaw (block : TextBlock) : Option String :=
  (block.region.filter fun region => !(labelForRegion region.1.label).2).map (·.1.label)

/-! ### Font runs -/

/-- A stretch of an item's text in one font. -/
structure FontRun where
  start : ℕ
  finish : ℕ
  fontFamily : Option String
  bold : Bool
  italic : Bool
  fontSizePt : Option ℚ

/-- `contains`, of a font's name. -/
def names (name : Option String) (face : String) : Bool :=
  name.any fun name => face.toList <:+: name.toList

/-- The run of lines in one font, in characters of the text, unless it styles nothing: the
marker in front of the text has the given length. -/
def fontRun (font : LineFacts) (markerShift start finish : ℕ) : Option FontRun :=
  let runStart := max start markerShift - markerShift
  let runEnd := max finish markerShift - markerShift
  if (font.fontName.isSome ∨ font.fontSizePt.isSome) ∧ runStart < runEnd then
    some ⟨runStart, runEnd, font.fontName, names font.fontName "Bold",
      names font.fontName "Italic" || names font.fontName "Oblique", font.fontSizePt⟩
  else none

/-- The runs of consecutive lines that share one font. -/
def fontRuns (page : SourcePage) (markerShift : ℕ) : List (LineRef × ℕ × ℕ) → List FontRun
  | [] => []
  | (line, start, finish) :: spans =>
    let font := page.factsOf line
    let same (next : LineRef × ℕ × ℕ) : Bool :=
      (page.factsOf next.1).fontName = font.fontName &&
        (page.factsOf next.1).fontSizePt = font.fontSizePt
    let last := ((spans.takeWhile same).getLast?.map (·.2.2)).getD finish
    (fontRun font markerShift start last).toList ++
      fontRuns page markerShift (spans.dropWhile same)
termination_by spans => spans.length
decreasing_by exact Nat.lt_succ_of_le (List.length_dropWhile_le _ _)

/-! ### What an item shows -/

/-- The text of an item with its marker taken off, and how it is styled. -/
structure TextBody where
  label : DocItemLabel
  labelRaw : Option String
  marker : Option (List UInt8 × Bool)
  text : List UInt8
  spans : List FontRun

/-- The marker of a block's item. -/
def TextBlock.markerSplit (block : TextBlock) : Option ListMarkerSplit :=
  if block.label = .listItem then splitListMarker block.mergedText.merged else none

/-- How many characters are before the text of a block's item. -/
def TextBlock.markerShift (block : TextBlock) : ℕ :=
  block.markerSplit.elim 0 (·.prefixCodePoints)

/-- The body of the item that a block becomes.  A code item keeps no runs. -/
def textBody (page : SourcePage) (block : TextBlock) : TextBody where
  label := block.label
  labelRaw := block.labelRaw
  marker := block.markerSplit.map fun split => (split.marker, split.enumerated)
  text := block.markerSplit.elim block.mergedText.merged (·.text)
  spans :=
    if block.label = .code then [] else fontRuns page block.markerShift block.mergedText.spans

/-! ### Rows -/

/-- The place of an item's text in the plain text, and how it was read. -/
structure TextOffset where
  selfRef : String
  utfStart : ℕ
  utfEnd : ℕ
  confidence : Option ℚ
  source : TextOrigin

def TextOffset.range (offset : TextOffset) : ℕ × ℕ :=
  (offset.utfStart, offset.utfEnd)

/-- The cursor of the items and of the plain text. -/
structure TextCursor extends AssemblyCursor where
  utfOffset : ℕ := 0
  hasText : Bool := false

/-- The items of a page so far, with the rest of the text items and their rows. -/
structure TextEmission where
  emission : Emission
  utfOffset : ℕ
  hasText : Bool
  bodies : List TextBody := []
  textOffsets : List TextOffset := []

/-- The weakest confidence of a block's lines. -/
def blockConfidence (page : SourcePage) (block : TextBlock) : Option ℚ :=
  block.lines.foldl (fun confidence line =>
    match (page.factsOf line).confidence with
    | some next => some (confidence.elim next (min · next))
    | none => confidence) none

/-- The source of a block: a digital one only where every line is. -/
def blockSource (page : SourcePage) (block : TextBlock) : TextOrigin :=
  if block.lines.all fun line => textSourceFor page line = .digitalPdf then .digitalPdf else .ocr

/-- `emit_block`, with the row. -/
def emitText (page : SourcePage) (pageNumber : ℤ) (texts : TextEmission) (block : TextBlock) :
    Except AssemblyError TextEmission := do
  let emission ← emitBlock pageNumber texts.emission block
  if block.mergedText.merged.all isSpaceByte then return { texts with emission }
  let start := if texts.hasText then texts.utfOffset + 1 else texts.utfOffset
  let finish := start + (block.mergedText.codePoints - block.markerShift)
  return {
    emission
    utfOffset := finish
    hasText := true
    bodies := texts.bodies ++ [textBody page block]
    textOffsets := texts.textOffsets ++
      [⟨slotRef kTexts texts.emission.cursor.textIndex, start, finish, blockConfidence page block,
        blockSource page block⟩] }

/-- The floats that are placed at a position. -/
def emitPlaced (page : SourcePage) (pageNumber : ℤ) (index : ℕ) (placed : List Placed)
    (texts : TextEmission) : TextEmission :=
  { texts with
    emission := ((placed.takeWhile (·.anchor = index)).map Placed.region).foldl
      (emitFloat page.toOcrPage pageNumber) texts.emission }

/-- A block is printed unless it is suppressed. -/
def emitUnsuppressedText (page : SourcePage) (pageNumber : ℤ) (texts : TextEmission)
    (block : TextBlock) : Except AssemblyError TextEmission :=
  if block.suppressed then .ok texts else emitText page pageNumber texts block

/-- The blocks from a position on, each behind the floats that are placed there. -/
def emitTexts (page : SourcePage) (pageNumber : ℤ) :
    List TextBlock → ℕ → List Placed → TextEmission → Except AssemblyError TextEmission
  | [], index, placed, texts => .ok (emitPlaced page pageNumber index placed texts)
  | block :: blocks, index, placed, texts => do
    let texts ← emitUnsuppressedText page pageNumber
      (emitPlaced page pageNumber index placed texts) block
    emitTexts page pageNumber blocks (index + 1) (placed.dropWhile (·.anchor = index)) texts

/-- What a page is assembled into, with the rest of its text items and their rows. -/
structure TextPageData where
  page : PageData
  bodies : List TextBody
  textOffsets : List TextOffset

/-- `append_page_data`. -/
def appendPageTexts (page : SourcePage) (pageNumber : ℤ) (cursor : TextCursor) :
    Except AssemblyError (TextCursor × TextPageData) := do
  let blocks := buildTextBlocks isSiblingListMarker page.toOcrPage
  let texts ← emitTexts page pageNumber blocks 0 (placedFloats page.toOcrPage blocks)
    { emission := { cursor := cursor.toAssemblyCursor }
      utfOffset := cursor.utfOffset
      hasText := cursor.hasText }
  let attached := texts.emission.captions.foldl attachCaption texts.emission
  return ({ attached.cursor with utfOffset := texts.utfOffset, hasText := texts.hasText },
    ⟨attached.pageData pageNumber, texts.bodies, texts.textOffsets⟩)

/-! ### The text of a block -/

/-- The text of a block so far is one of characters, all of them counted, and no line gives
characters beyond them. -/
structure MergedText.Sound (text : MergedText) : Prop where
  utf8 : IsUtf8 text.merged
  codePoints : text.codePoints = (decodeUtf8 text.merged).length
  spans : ∀ span ∈ text.spans, span.2.2 ≤ text.codePoints

theorem countP_startsChar {text : List UInt8} (h : IsUtf8 text) :
  text.countP Utf8.startsChar = (decodeUtf8 text).length
  := by
  rw [← h.countP_eq]
  apply countP_congr
  intro byte _
  simp [Utf8.startsChar, isContinuation]

theorem MergedText.Sound.add {separator : UInt8} {text : MergedText} (h : text.Sound)
    (hseparator : decodeUtf8 [separator] = [separator.toNat] ∧ IsUtf8 [separator])
    {line : LineRef} (hline : IsUtf8 line.1.text) :
  (text.add separator line).Sound
  := by
  have hspans : ∀ span ∈ text.spans, span.2.2 ≤ (text.add separator line).codePoints := by
    intro span hspan
    apply (h.spans span hspan).trans
    simp only [MergedText.add]
    split <;> omega
  by_cases hnil : text.merged = []
  · constructor
    case utf8 => simpa [MergedText.add, appendText, hnil] using hline
    case codePoints =>
      have hzero : text.codePoints = 0 := by simp [h.codePoints, hnil, decodeUtf8, decodeFrom]
      simp [MergedText.add, appendText, hnil, hzero, countP_startsChar hline]
    case spans =>
      intro span hspan
      rcases mem_append.mp hspan with hold | hnew
      · exact hspans span hold
      · rw [mem_singleton.mp hnew]
        exact le_rfl
  · have hstem := h.utf8.append hseparator.2
    constructor
    case utf8 => simpa [MergedText.add, appendText, hnil] using hstem.append hline
    case codePoints =>
      simp only [MergedText.add, appendText, hnil, if_false, countP_startsChar hline]
      rw [hstem.decodeUtf8_append, h.utf8.decodeUtf8_append, hseparator.1, h.codePoints,
        length_append, length_append, length_singleton]
    case spans =>
      intro span hspan
      rcases mem_append.mp hspan with hold | hnew
      · exact hspans span hold
      · rw [mem_singleton.mp hnew]
        exact le_rfl

/-- The lines of a block are texts of characters. -/
def TextBlock.IsUtf8 (block : TextBlock) : Prop :=
  ∀ line ∈ block.lines, Chunking.IsUtf8 line.1.text

theorem sound_foldl_add {separator : UInt8}
    (hseparator : decodeUtf8 [separator] = [separator.toNat] ∧ IsUtf8 [separator])
    {lines : List LineRef} (hlines : ∀ line ∈ lines, IsUtf8 line.1.text) {text : MergedText}
    (htext : text.Sound) :
  (lines.foldl (.add separator) text).Sound
  := by
  induction lines generalizing text with
  | nil => exact htext
  | cons line lines ih =>
    obtain ⟨hline, hlines⟩ := forall_mem_cons.mp hlines
    exact ih hlines (htext.add hseparator hline)

theorem TextBlock.IsUtf8.sound {block : TextBlock} (h : block.IsUtf8) :
  block.mergedText.Sound
  := by
  have hseparator : decodeUtf8 [separatorOf block.region]
      = [(separatorOf block.region).toNat] ∧ Chunking.IsUtf8 [separatorOf block.region] := by
    unfold separatorOf
    split
    · decide
    · decide
  exact sound_foldl_add hseparator h ⟨by decide, by decide, by simp⟩

/-! ### The text of an item -/

/-- A run of a font is inside the text. -/
theorem inside_fontRuns {page : SourcePage} {markerShift bound : ℕ}
    {spans : List (LineRef × ℕ × ℕ)} (h : ∀ span ∈ spans, span.2.2 ≤ bound) :
  ∀ run ∈ fontRuns page markerShift spans,
    run.start < run.finish ∧ run.finish ≤ bound - markerShift
  := by
  fun_induction fontRuns page markerShift spans with
  | case1 => simp
  | case2 line start finish spans font same last ih =>
    obtain ⟨hfirst, hspans⟩ := forall_mem_cons.mp h
    have hlast : last ≤ bound := by
      cases hsame : (spans.takeWhile same).getLast? with
      | none => simpa [last, hsame] using hfirst
      | some span =>
        have hmem := mem_of_getLast? hsame
        simpa [last, hsame] using hspans span ((takeWhile_sublist _).mem hmem)
    intro run hrun
    rcases mem_append.mp hrun with hnow | hlater
    · rw [Option.mem_toList, fontRun] at hnow
      split at hnow
      case isFalse => cases hnow
      case isTrue hstyled =>
        cases hnow
        constructor
        · exact hstyled.2
        · change max last markerShift - markerShift ≤ bound - markerShift
          omega
    · exact ih (fun span hspan => hspans span ((dropWhile_sublist _).mem hspan)) run hlater

/-- What an item shows of its raw text: the text behind the marker, or all of it. -/
def withoutMarker (label : DocItemLabel) (orig : List UInt8) : List UInt8 :=
  if label = .listItem then (splitListMarker orig).elim orig (·.text) else orig

/-- The text of an item is one of characters and not empty, and its runs are inside it. -/
structure TextBody.Sound (body : TextBody) : Prop where
  utf8 : IsUtf8 body.text
  nonempty : body.text ≠ []
  spans : ∀ run ∈ body.spans,
    run.start < run.finish ∧ run.finish ≤ (decodeUtf8 body.text).length

/-- How many characters an item shows is how far the cursor moves. -/
theorem sound_textBody (page : SourcePage) {block : TextBlock} (hblock : block.IsUtf8)
    (hblank : ¬ block.mergedText.merged.all isSpaceByte) :
  (textBody page block).Sound ∧
    (decodeUtf8 (textBody page block).text).length
      = block.mergedText.codePoints - block.markerShift
  := by
  have hsound := hblock.sound
  have hshown : IsUtf8 (textBody page block).text ∧ (textBody page block).text ≠ [] ∧
      (decodeUtf8 (textBody page block).text).length
        = block.mergedText.codePoints - block.markerShift := by
    rw [hsound.codePoints]
    cases hsplit : block.markerSplit with
    | none =>
      have hne : block.mergedText.merged ≠ [] := by
        intro hnil
        simp [hnil] at hblank
      simpa [textBody, TextBlock.markerShift, hsplit] using ⟨hsound.utf8, hne⟩
    | some split =>
      obtain ⟨separator, hsplits⟩ : ∃ separator, Splits block.mergedText.merged split separator := by
        unfold TextBlock.markerSplit at hsplit
        split at hsplit
        case isTrue => exact splits_splitListMarker hsound.utf8 hsplit
        case isFalse => cases hsplit
      simp only [textBody, TextBlock.markerShift, hsplit, Option.elim_some, hsplits.prefixed,
        hsplits.points, length_append, length_cons]
      exact ⟨hsplits.text, hsplits.content, by omega⟩
  obtain ⟨hutf8, hne, hlength⟩ := hshown
  use ⟨hutf8, hne, ?_⟩, hlength
  rw [hlength]
  intro run hrun
  unfold textBody at hrun
  dsimp only at hrun
  split at hrun
  case isTrue => cases hrun
  case isFalse => exact inside_fontRuns hsound.spans run hrun

/-! ### The walk with the rows -/

/-- The rows go along with the items and change none. -/
theorem emission_emitText (page : SourcePage) (pageNumber : ℤ) (texts : TextEmission)
    (block : TextBlock) :
  (emitText page pageNumber texts block).map TextEmission.emission
    = emitBlock pageNumber texts.emission block
  := by
  rw [emitText]
  cases emitBlock pageNumber texts.emission block with
  | error error => rfl
  | ok emission =>
    cases block.mergedText.merged.all isSpaceByte with
    | true => rfl
    | false => rfl

theorem emission_emitUnsuppressedText (page : SourcePage) (pageNumber : ℤ)
    (texts : TextEmission) (block : TextBlock) :
  (emitUnsuppressedText page pageNumber texts block).map TextEmission.emission
    = emitUnsuppressed pageNumber texts.emission block
  := by
  rw [emitUnsuppressedText, emitUnsuppressed]
  split
  · rfl
  · exact emission_emitText page pageNumber texts block

theorem emission_emitTexts (page : SourcePage) (pageNumber : ℤ) (blocks : List TextBlock)
    (index : ℕ) (placed : List Placed) (texts : TextEmission) :
  (emitTexts page pageNumber blocks index placed texts).map TextEmission.emission
    = emitPage page.toOcrPage pageNumber blocks index placed texts.emission
  := by
  induction blocks generalizing index placed texts with
  | nil => rfl
  | cons block blocks ih =>
    have hblock := emission_emitUnsuppressedText page pageNumber
      (emitPlaced page pageNumber index placed texts) block
    rw [emitTexts, emitPage]
    change _ = emitUnsuppressed pageNumber
      (emitPlaced page pageNumber index placed texts).emission block >>= _
    rw [← hblock]
    cases emitUnsuppressedText page pageNumber (emitPlaced page pageNumber index placed texts)
        block with
    | error error => rfl
    | ok texts => exact ih _ _ texts

/-- The cursor is at the end of the last text, if there is one. -/
def TextEmission.EndsAt (texts : TextEmission) (last : Option ℕ) : Prop :=
  texts.hasText = last.isSome ∧ texts.utfOffset = last.getD 0

/-- The references of the given number of text items, from a position on. -/
def textRefs (start count : ℕ) : List String :=
  (List.range' start count).map (slotRef kTexts)

theorem textRefs_append (start first second : ℕ) :
  textRefs start (first + second) = textRefs start first ++ textRefs (start + first) second
  := by
  rw [textRefs, textRefs, textRefs, ← map_append, range'_append_1]

/-- How many characters a block's item shows. -/
def shownLength (page : SourcePage) (block : TextBlock) : ℕ :=
  (decodeUtf8 (textBody page block).text).length

/-- What a stretch of the walk adds to the text items and to their rows: an item and a row for
each block, one behind the other. -/
structure TextGains (page : SourcePage) (last : Option ℕ) (texts texts' : TextEmission)
    (blocks : List TextBlock) : Prop where
  refs : texts'.emission.texts.map TextItem.selfRef = texts.emission.texts.map TextItem.selfRef ++
    textRefs texts.emission.cursor.textIndex blocks.length
  textIndex : texts'.emission.cursor.textIndex =
    texts.emission.cursor.textIndex + blocks.length
  bodies : texts'.bodies = texts.bodies ++ blocks.map (textBody page)
  offsetRefs : texts'.textOffsets.map TextOffset.selfRef =
    texts.textOffsets.map TextOffset.selfRef ++
      textRefs texts.emission.cursor.textIndex blocks.length
  ranges : texts'.textOffsets.map TextOffset.range = texts.textOffsets.map TextOffset.range ++
    rangesFrom last (blocks.map (shownLength page))
  ends : texts'.EndsAt (endFrom last (blocks.map (shownLength page)))

variable {page : SourcePage} {pageNumber : ℤ} {last : Option ℕ} {texts texts' : TextEmission}

/-- Nothing is added where only the floats change. -/
theorem TextGains.of_eq (hends : texts.EndsAt last)
    (htexts : texts'.emission.texts = texts.emission.texts)
    (hindex : texts'.emission.cursor.textIndex = texts.emission.cursor.textIndex)
    (hrows : texts'.bodies = texts.bodies ∧ texts'.textOffsets = texts.textOffsets ∧
      texts'.hasText = texts.hasText ∧ texts'.utfOffset = texts.utfOffset) :
  TextGains page last texts texts' []
  := by
  obtain ⟨hbodies, hoffsets, hhasText, hutfOffset⟩ := hrows
  constructor
  case refs => simp [htexts, textRefs]
  case textIndex => exact hindex
  case bodies => simp [hbodies]
  case offsetRefs => simp [hoffsets, textRefs]
  case ranges => simp [hoffsets, rangesFrom]
  case ends => exact ⟨hhasText.trans hends.1, hutfOffset.trans hends.2⟩

theorem TextGains.trans {first second third : TextEmission} {blocks blocks' : List TextBlock}
    (h : TextGains page last first second blocks)
    (h' : TextGains page (endFrom last (blocks.map (shownLength page))) second third blocks') :
  TextGains page last first third (blocks ++ blocks')
  := by
  constructor
  case refs => rw [h'.refs, h.refs, h.textIndex, length_append, textRefs_append,
    append_assoc]
  case textIndex => rw [h'.textIndex, h.textIndex, length_append, Nat.add_assoc]
  case bodies => rw [h'.bodies, h.bodies, map_append, append_assoc]
  case offsetRefs => rw [h'.offsetRefs, h.offsetRefs, h.textIndex, length_append,
    textRefs_append, append_assoc]
  case ranges => rw [h'.ranges, h.ranges, map_append, rangesFrom_append, append_assoc]
  case ends =>
    rw [map_append, endFrom_append]
    exact h'.ends

theorem texts_emitFloats (emission : Emission) (regions : List RegionRef) :
  (regions.foldl (emitFloat page.toOcrPage pageNumber) emission).texts = emission.texts ∧
    (regions.foldl (emitFloat page.toOcrPage pageNumber) emission).cursor.textIndex
      = emission.cursor.textIndex
  := by
  induction regions generalizing emission with
  | nil => exact ⟨rfl, rfl⟩
  | cons region regions ih =>
    have hstep : (emitFloat page.toOcrPage pageNumber emission region).texts = emission.texts ∧
        (emitFloat page.toOcrPage pageNumber emission region).cursor.textIndex
          = emission.cursor.textIndex := by
      unfold emitFloat
      split
      · exact ⟨rfl, rfl⟩
      · exact ⟨rfl, rfl⟩
    obtain ⟨htexts, hindex⟩ := ih (emitFloat page.toOcrPage pageNumber emission region)
    exact ⟨htexts.trans hstep.1, hindex.trans hstep.2⟩

/-- The next block adds its item and its row, unless it is blank. -/
theorem textGains_emitText {block : TextBlock} (hblock : block.IsUtf8)
    (hends : texts.EndsAt last) (hsuppressed : ¬ block.suppressed)
    (h : emitText page pageNumber texts block = .ok texts') :
  TextGains page last texts texts' (printed [block])
  := by
  unfold emitText emitBlock at h
  by_cases hlong : intMax < block.mergedText.codePoints
  · rw [if_pos hlong] at h
    cases h
  rw [if_neg hlong] at h
  by_cases hblank : block.mergedText.merged.all isSpaceByte
  · rw [if_pos hblank] at h
    change (if _ then Except.ok _ else _) = Except.ok texts' at h
    rw [if_pos hblank] at h
    obtain rfl := Except.ok.inj h
    have hprinted : printed [block] = [] := by
      rw [merged_mergedText] at hblank
      simp [printed, TextBlock.blank, hblank]
    rw [hprinted]
    exact .of_eq hends rfl rfl ⟨rfl, rfl, rfl, rfl⟩
  · rw [if_neg hblank] at h
    change (if _ then _ else Except.ok _) = Except.ok texts' at h
    rw [if_neg hblank] at h
    obtain rfl := Except.ok.inj h
    have hprinted : printed [block] = [block] := by
      rw [merged_mergedText] at hblank
      simp [printed, TextBlock.blank, hsuppressed, hblank]
    obtain ⟨-, hlength⟩ := sound_textBody page hblock hblank
    have hstart : (if texts.hasText then texts.utfOffset + 1 else texts.utfOffset)
        = nextStart last := by
      rw [hends.1, hends.2]
      cases last with
      | none => rfl
      | some finish => rfl
    rw [hprinted]
    constructor
    case refs => simp [textRefs]
    case textIndex => rfl
    case bodies => rfl
    case offsetRefs => simp [textRefs]
    case ranges => simp [TextOffset.range, rangesFrom, shownLength, hlength, hstart]
    case ends => simp [TextEmission.EndsAt, endFrom, shownLength, hlength, hstart]

/-- The floats at a position add nothing to the text items. -/
theorem textGains_emitPlaced {texts : TextEmission} (hends : texts.EndsAt last) (index : ℕ)
    (placed : List Placed) :
  TextGains page last texts (emitPlaced page pageNumber index placed texts) []
  := by
  obtain ⟨htexts, hindex⟩ := @texts_emitFloats page pageNumber texts.emission
    ((placed.takeWhile (·.anchor = index)).map Placed.region)
  exact .of_eq hends htexts hindex ⟨rfl, rfl, rfl, rfl⟩

/-- The walk adds an item and a row for every block that is printed. -/
theorem textGains_emitTexts (blocks : List TextBlock) (hblocks : ∀ block ∈ blocks, block.IsUtf8)
    {index : ℕ} {placed : List Placed} (hends : texts.EndsAt last)
    (h : emitTexts page pageNumber blocks index placed texts = .ok texts') :
  TextGains page last texts texts' (printed blocks)
  := by
  induction blocks generalizing index placed texts last with
  | nil =>
    obtain rfl := Except.ok.inj h
    exact textGains_emitPlaced hends index placed
  | cons block blocks ih =>
    obtain ⟨hblock, hblocks⟩ := forall_mem_cons.mp hblocks
    have hfloats := @textGains_emitPlaced page pageNumber last texts hends index placed
    rw [emitTexts] at h
    cases hnext : emitUnsuppressedText page pageNumber
        (emitPlaced page pageNumber index placed texts) block with
    | error error =>
      rw [hnext] at h
      cases h
    | ok next =>
      rw [hnext] at h
      have hstep : TextGains page last (emitPlaced page pageNumber index placed texts) next
          (printed [block]) := by
        unfold emitUnsuppressedText at hnext
        split at hnext
        case isTrue hsuppressed =>
          obtain rfl := Except.ok.inj hnext
          have hprinted : printed [block] = [] := by simp [printed, hsuppressed]
          rw [hprinted]
          exact .of_eq hfloats.ends rfl rfl ⟨rfl, rfl, rfl, rfl⟩
        case isFalse hsuppressed => exact textGains_emitText hblock hfloats.ends hsuppressed hnext
      have hsplit : printed (block :: blocks) = printed [block] ++ printed blocks := by
        rw [printed, printed, printed, ← filter_append]
        rfl
      rw [hsplit]
      exact (hfloats.trans hstep).trans (ih hblocks hstep.ends h)

end GRParse.Assembly
