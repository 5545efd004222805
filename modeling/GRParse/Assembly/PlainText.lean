import GRParse.Assembly.TextRows

/-!
# The plain text of a document

The pages are appended one behind the other to a document and to its plain text, where a newline
is set between the texts of two items.  The rows of the items slice their texts out of the plain
text, and the chunker finds the same places again from the finished document.

The metadata of the pages is left out.
-/

namespace GRParse.Assembly

open Chunking ListMarker Joined List

/-! ### Appending pages -/

/-- A text item of a document. -/
structure AssembledText extends TextItem where
  body : TextBody

structure AssembledDocument where
  texts : List AssembledText := []
  tables : List (FloatItem TableContent) := []
  pictures : List (FloatItem PictureContent) := []
  bodyChildren : List String := []
  furnitureChildren : List String := []

/-- What the pages so far are appended to. -/
structure Assembled where
  cursor : TextCursor := {}
  document : AssembledDocument := {}
  plainText : List UInt8 := []
  textOffsets : List TextOffset := []

def newline : UInt8 := 0x0A

/-- A text item is appended.  Where its page has no body order, it is a child of the body unless
it is furniture. -/
def Assembled.addText (ordered : Bool) (assembled : Assembled) (item : AssembledText) :
    Assembled :=
  let document := assembled.document
  { assembled with
    document := { document with
      texts := document.texts ++ [item]
      bodyChildren :=
        if item.content.furniture || ordered then document.bodyChildren
        else document.bodyChildren ++ [item.selfRef]
      furnitureChildren :=
        if item.content.furniture then document.furnitureChildren ++ [item.selfRef]
        else document.furnitureChildren }
    plainText := addPart newline assembled.plainText item.body.text }

/-- The floats of a page are appended, and its body order. -/
def AssembledDocument.addFloats (document : AssembledDocument) (page : PageData) :
    AssembledDocument :=
  let floats := page.tables.map FloatItem.selfRef ++ page.pictures.map FloatItem.selfRef
  { document with
    tables := document.tables ++ page.tables
    pictures := document.pictures ++ page.pictures
    bodyChildren := document.bodyChildren ++
      (if page.bodyOrder = [] then floats else []) ++ page.bodyOrder }

/-- The text items of a page. -/
def TextPageData.items (data : TextPageData) : List AssembledText :=
  List.zipWith (fun item body => { item with body }) data.page.texts data.bodies

/-- `append_page_to_document`. -/
def appendPageToDocument (assembled : Assembled) (page : SourcePage × ℤ) :
    Except AssemblyError Assembled := do
  let (cursor, data) ← appendPageTexts page.1 page.2 assembled.cursor
  let texted := data.items.foldl (.addText (data.page.bodyOrder ≠ []))
    { assembled with cursor, textOffsets := assembled.textOffsets ++ data.textOffsets }
  return { texted with document := texted.document.addFloats data.page }

/-- The pages are appended one behind the other. -/
def appendPages (pages : List (SourcePage × ℤ)) : Except AssemblyError Assembled :=
  pages.foldlM appendPageToDocument {}

/-! ### Deriving the rows -/

/-- The rows of the chunker so far. -/
structure OffsetScan where
  table : List (String × ℕ × ℕ) := []
  cursor : ℕ := 0
  hasText : Bool := false

/-- The next text of a document takes the next row, unless its key is taken. -/
def OffsetScan.step (scan : OffsetScan) (text : List UInt8 × ℕ) : OffsetScan :=
  let start := if scan.hasText then scan.cursor + 1 else scan.cursor
  let finish := start + (decodeUtf8 text.1).length
  let key := slotRef kTexts text.2
  { table :=
      if (scan.table.lookup key).isSome then scan.table
      else scan.table ++ [(key, start, finish)]
    cursor := finish
    hasText := scan.hasText || !text.1.isEmpty }

/-- `derive_offsets`. -/
def deriveOffsets (document : AssembledDocument) : List (String × ℕ × ℕ) :=
  ((document.texts.map (·.body.text)).zipIdx.foldl OffsetScan.step {}).table

/-! ### One page -/

/-- The items of a page are those of the walk without rows. -/
theorem map_appendPageTexts (page : SourcePage) (pageNumber : ℤ) (cursor : TextCursor) :
  (appendPageTexts page pageNumber cursor).map
      (fun result => (result.1.toAssemblyCursor, result.2.page))
    = appendPageData isSiblingListMarker page.toOcrPage pageNumber cursor.toAssemblyCursor
  := by
  let blocks := buildTextBlocks isSiblingListMarker page.toOcrPage
  have hemission := emission_emitTexts page pageNumber blocks 0
    (placedFloats page.toOcrPage blocks)
    { emission := { cursor := cursor.toAssemblyCursor }, utfOffset := cursor.utfOffset,
      hasText := cursor.hasText }
  rw [appendPageTexts, appendPageData, ← hemission]
  dsimp only
  cases emitTexts page pageNumber blocks 0 (placedFloats page.toOcrPage blocks) _ with
  | error error => rfl
  | ok texts => rfl

theorem selfRef_attachCaptions (emission : Emission) (captions : List (RegionRef × String)) :
  (captions.foldl attachCaption emission).texts.map TextItem.selfRef
      = emission.texts.map TextItem.selfRef ∧
    (captions.foldl attachCaption emission).cursor = emission.cursor
  := by
  induction captions generalizing emission with
  | nil => exact ⟨rfl, rfl⟩
  | cons caption captions ih =>
    have hstep : (attachCaption emission caption).texts.map TextItem.selfRef
        = emission.texts.map TextItem.selfRef ∧
        (attachCaption emission caption).cursor = emission.cursor := by
      unfold attachCaption
      dsimp only
      split
      · exact ⟨rfl, rfl⟩
      · split
        · exact ⟨rfl, rfl⟩
        · constructor
          · rw [map_map]
            apply map_congr_left
            intro item _
            dsimp only [Function.comp]
            split <;> rfl
          · rfl
    obtain ⟨hrefs, hcursor⟩ := ih (attachCaption emission caption)
    exact ⟨hrefs.trans hstep.1, hcursor.trans hstep.2⟩

/-- The lines of a page are texts of characters. -/
def SourcePage.IsUtf8 (page : SourcePage) : Prop :=
  ∀ line ∈ page.lines, Chunking.IsUtf8 line.text

variable {page : SourcePage}

theorem SourcePage.IsUtf8.blocks (h : page.IsUtf8) :
  ∀ block ∈ buildTextBlocks isSiblingListMarker page.toOcrPage, block.IsUtf8
  := by
  intro block hblock line hline
  have hmem : line ∈ page.readableLines :=
    (buildTextBlocks_perm page.toOcrPage).mem_iff.mp (mem_flatMap.mpr ⟨block, hblock, hline⟩)
  obtain ⟨hzip, -⟩ := mem_filter.mp hmem
  apply h
  rw [(mem_zipIdx hzip).2.2]
  exact getElem_mem _

/-- The cursor is at the end of the last text, if there is one. -/
def TextCursor.EndsAt (cursor : TextCursor) (last : Option ℕ) : Prop :=
  cursor.hasText = last.isSome ∧ cursor.utfOffset = last.getD 0

/-- How many characters an item shows. -/
def AssembledText.length (item : AssembledText) : ℕ :=
  (decodeUtf8 item.body.text).length

/-- What a text item shows is what its raw text says, with the marker taken off. -/
structure AssembledText.Sound (item : AssembledText) : Prop where
  body : item.body.Sound
  shown : item.body.text = withoutMarker item.body.label item.content.orig

/-- The text items of a page have the next references, and so have their rows. -/
structure Numbered (cursor cursor' : TextCursor) (last : Option ℕ) (data : TextPageData) :
    Prop where
  refs : data.items.map (·.selfRef) = textRefs cursor.textIndex data.items.length
  textIndex : cursor'.textIndex = cursor.textIndex + data.items.length
  offsetRefs : data.textOffsets.map TextOffset.selfRef
    = textRefs cursor.textIndex data.items.length
  ranges : data.textOffsets.map TextOffset.range
    = rangesFrom last (data.items.map AssembledText.length)
  ends : cursor'.EndsAt (endFrom last (data.items.map AssembledText.length))
  items : ∀ item ∈ data.items, item.Sound

/-- The items of a page are its text items with their bodies. -/
theorem map_items {data : TextPageData} (h : data.page.texts.length = data.bodies.length) :
  data.items.map (·.toTextItem) = data.page.texts ∧ data.items.map (·.body) = data.bodies
  := by
  unfold TextPageData.items
  generalize data.page.texts = texts at h ⊢
  generalize data.bodies = bodies at h ⊢
  induction texts generalizing bodies with
  | nil =>
    obtain rfl := eq_nil_of_length_eq_zero h.symm
    exact ⟨rfl, rfl⟩
  | cons text texts ih =>
    obtain ⟨body, bodies, rfl⟩ := exists_cons_of_length_eq_add_one h.symm
    obtain ⟨htexts, hbodies⟩ := ih bodies (Nat.succ.inj h)
    exact ⟨congrArg (text :: ·) htexts, congrArg (body :: ·) hbodies⟩

/-- The item that a printed block becomes is sound. -/
theorem sound_of_printed {pageNumber : ℤ} {block : TextBlock} (hblock : block.IsUtf8)
    (hprinted : ¬ block.blank) {item : AssembledText}
    (hcontent : item.content = textContent pageNumber block)
    (hbody : item.body = textBody page block) :
  item.Sound
  := by
  rw [TextBlock.blank, ← merged_mergedText] at hprinted
  constructor
  case body =>
    rw [hbody]
    exact (sound_textBody page hblock hprinted).1
  case shown =>
    rw [hbody, hcontent]
    change block.markerSplit.elim _ _ = withoutMarker block.label block.mergedText.merged
    unfold TextBlock.markerSplit withoutMarker
    split
    · rfl
    · rfl

/-- What a page adds has the next references, where its blocks are printed. -/
theorem numbered_of_appendPageTexts (hpage : page.IsUtf8) {pageNumber : ℤ}
    {cursor cursor' : TextCursor} {last : Option ℕ} (hends : cursor.EndsAt last)
    {data : TextPageData} (h : appendPageTexts page pageNumber cursor = .ok (cursor', data))
    (hcontents : data.page.texts.map TextItem.content =
      (printed (buildTextBlocks isSiblingListMarker page.toOcrPage)).map
        (textContent pageNumber)) :
  Numbered cursor cursor' last data
  := by
  let all := buildTextBlocks isSiblingListMarker page.toOcrPage
  let blocks := printed all
  let start : TextEmission :=
    { emission := { cursor := cursor.toAssemblyCursor }, utfOffset := cursor.utfOffset,
      hasText := cursor.hasText }
  rw [appendPageTexts] at h
  cases hemit : emitTexts page pageNumber all 0 (placedFloats page.toOcrPage all) start with
  | error error =>
    change (emitTexts page pageNumber all 0 _ start >>= _) = _ at h
    rw [hemit] at h
    cases h
  | ok texts =>
    change (emitTexts page pageNumber all 0 _ start >>= _) = _ at h
    rw [hemit] at h
    cases h
    have hstart : start.EndsAt last := hends
    have hgains := textGains_emitTexts all hpage.blocks hstart hemit
    obtain ⟨hrefs, hcursor⟩ := selfRef_attachCaptions texts.emission texts.emission.captions
    let attached := texts.emission.captions.foldl attachCaption texts.emission
    let data : TextPageData := ⟨attached.pageData pageNumber, texts.bodies, texts.textOffsets⟩
    have hbodies : data.bodies = blocks.map (textBody page) := hgains.bodies
    have htexts : data.page.texts.length = blocks.length := by
      simpa using congrArg length hcontents
    obtain ⟨hitems, hitemBodies⟩ := @map_items data (by rw [htexts, hbodies, length_map])
    have hlength : data.items.length = blocks.length := by
      simpa [htexts] using congrArg length hitems
    have hlengths : data.items.map AssembledText.length = blocks.map (shownLength page) := by
      have := congrArg (map fun body => (decodeUtf8 body.text).length)
        (hitemBodies.trans hbodies)
      rw [map_map, map_map] at this
      exact this
    change Numbered cursor _ last data
    constructor
    case refs =>
      have := congrArg (map TextItem.selfRef) hitems
      rw [map_map] at this
      rw [hlength]
      exact this.trans (hrefs.trans hgains.refs)
    case textIndex =>
      rw [hlength]
      exact (congrArg AssemblyCursor.textIndex hcursor).trans hgains.textIndex
    case offsetRefs =>
      rw [hlength]
      exact hgains.offsetRefs
    case ranges =>
      rw [hlengths]
      exact hgains.ranges
    case ends =>
      rw [hlengths]
      exact hgains.ends
    case items =>
      have hpairs : data.items.map (fun item => (item.content, item.body))
          = blocks.map fun block => (textContent pageNumber block, textBody page block) := by
        have hcontent := congrArg (map TextItem.content) hitems
        rw [map_map] at hcontent
        have hzip := congrArg₂ zip (hcontent.trans hcontents) (hitemBodies.trans hbodies)
        rw [zip_map', zip_map'] at hzip
        exact hzip
      intro item hitem
      have hpair := mem_map_of_mem (f := fun item : AssembledText => (item.content, item.body)) hitem
      rw [hpairs] at hpair
      obtain ⟨block, hblock, heq⟩ := mem_map.mp hpair
      obtain ⟨hcontent, hbody⟩ := Prod.mk.inj heq
      obtain ⟨hmem, hshown⟩ := mem_filter.mp hblock
      simp only [Bool.and_eq_true, Bool.not_eq_true'] at hshown
      exact sound_of_printed (hpage.blocks block hmem) (by simp [hshown.2]) hcontent.symm hbody.symm

/-- A page is appended with the next references, unless one of its blocks is refused. -/
theorem appendPageTexts_spec (hpage : page.IsUtf8) (pageNumber : ℤ) {cursor : TextCursor}
    {last : Option ℕ} (hends : cursor.EndsAt last) :
  ((∃ block ∈ buildTextBlocks isSiblingListMarker page.toOcrPage, block.TooLong) ∧
      appendPageTexts page pageNumber cursor = .error .textBlockTooLong) ∨
    ∃ cursor' data, appendPageTexts page pageNumber cursor = .ok (cursor', data) ∧
      Numbered cursor cursor' last data
  := by
  have hmap := map_appendPageTexts page pageNumber cursor
  rcases @appendPageData_spec isSiblingListMarker page.toOcrPage pageNumber
    cursor.toAssemblyCursor with ⟨hlong, herror⟩ | ⟨-, cursor', output, hok, hprinted⟩
  · left
    use hlong
    rw [herror] at hmap
    cases hresult : appendPageTexts page pageNumber cursor with
    | error error =>
      cases error
      rfl
    | ok result =>
      rw [hresult] at hmap
      cases hmap
  · right
    rw [hok] at hmap
    cases hresult : appendPageTexts page pageNumber cursor with
    | error error =>
      rw [hresult] at hmap
      cases hmap
    | ok result =>
      rw [hresult] at hmap
      cases hmap
      exact ⟨_, _, rfl, numbered_of_appendPageTexts hpage hends hresult hprinted.texts⟩

/-! ### All pages -/

/-- A document so far: its items have their places as references, their texts are joined in the
plain text, and the rows are those of its items. -/
structure Laid (assembled : Assembled) : Prop where
  refs : assembled.document.texts.map (·.selfRef) = textRefs 0 assembled.document.texts.length
  textIndex : assembled.cursor.textIndex = assembled.document.texts.length
  plainText : assembled.plainText = Joined.join newline (assembled.document.texts.map (·.body.text))
  offsetRefs : assembled.textOffsets.map TextOffset.selfRef
    = textRefs 0 assembled.document.texts.length
  ranges : assembled.textOffsets.map TextOffset.range
    = rangesFrom none (assembled.document.texts.map AssembledText.length)
  ends : assembled.cursor.EndsAt
    (endFrom none (assembled.document.texts.map AssembledText.length))
  items : ∀ item ∈ assembled.document.texts, item.Sound

theorem laid_start :
  Laid {}
  := ⟨rfl, rfl, rfl, rfl, rfl, ⟨rfl, rfl⟩, by simp⟩

/-- The items of a page go behind the others, and their texts behind the plain text. -/
theorem foldl_addText (ordered : Bool) (items : List AssembledText) (assembled : Assembled) :
  let texted := items.foldl (.addText ordered) assembled
  texted.document.texts = assembled.document.texts ++ items ∧
    texted.plainText
      = (items.map (·.body.text)).foldl (addPart newline) assembled.plainText ∧
    texted.cursor = assembled.cursor ∧ texted.textOffsets = assembled.textOffsets
  := by
  induction items generalizing assembled with
  | nil => simp
  | cons item items ih =>
    obtain ⟨htexts, hplain, hcursor, hoffsets⟩ := ih (assembled.addText ordered item)
    constructor
    · rw [foldl_cons, htexts]
      exact append_assoc _ [item] items
    · exact ⟨hplain, hcursor, hoffsets⟩

/-- One more page is laid behind the others, unless it is refused. -/
theorem Laid.append {assembled : Assembled} (h : Laid assembled) {page : SourcePage × ℤ}
    (hpage : page.1.IsUtf8) :
  ((∃ block ∈ buildTextBlocks isSiblingListMarker page.1.toOcrPage, block.TooLong) ∧
      appendPageToDocument assembled page = .error .textBlockTooLong) ∨
    ∃ assembled', appendPageToDocument assembled page = .ok assembled' ∧ Laid assembled'
  := by
  rcases appendPageTexts_spec hpage page.2 h.ends with
    ⟨hlong, herror⟩ | ⟨cursor', data, hok, hnumbered⟩
  · left
    use hlong
    rw [appendPageToDocument, herror]
    rfl
  · right
    let next : Assembled :=
      { assembled with cursor := cursor', textOffsets := assembled.textOffsets ++ data.textOffsets }
    let ordered : Bool := data.page.bodyOrder ≠ []
    let texted := data.items.foldl (.addText ordered) next
    obtain ⟨htexts, hplain, hcursor, hoffsets⟩ := foldl_addText ordered data.items next
    use { texted with document := texted.document.addFloats data.page }
    constructor
    · rw [appendPageToDocument, hok]
      rfl
    have htexts : texted.document.texts = assembled.document.texts ++ data.items := htexts
    have hcursor : texted.cursor = cursor' := hcursor
    have hoffsets : texted.textOffsets = assembled.textOffsets ++ data.textOffsets := hoffsets
    constructor
    case refs =>
      change texted.document.texts.map _ = textRefs 0 texted.document.texts.length
      rw [htexts, map_append, h.refs, hnumbered.refs, h.textIndex, length_append,
        textRefs_append, Nat.zero_add]
    case textIndex =>
      change texted.cursor.textIndex = texted.document.texts.length
      rw [htexts, hcursor, hnumbered.textIndex, h.textIndex, length_append]
    case plainText =>
      change texted.plainText = Joined.join newline (texted.document.texts.map _)
      rw [htexts, hplain, map_append, Joined.join, foldl_append]
      exact congrArg (foldl _ · _) h.plainText
    case offsetRefs =>
      change texted.textOffsets.map _ = textRefs 0 texted.document.texts.length
      rw [htexts, hoffsets, map_append, h.offsetRefs, hnumbered.offsetRefs, h.textIndex,
        length_append, textRefs_append, Nat.zero_add]
    case ranges =>
      change texted.textOffsets.map _ = rangesFrom none (texted.document.texts.map _)
      rw [htexts, hoffsets, map_append, map_append, h.ranges, hnumbered.ranges,
        rangesFrom_append]
    case ends =>
      change texted.cursor.EndsAt (endFrom none (texted.document.texts.map _))
      rw [htexts, hcursor, map_append, endFrom_append]
      exact hnumbered.ends
    case items =>
      change ∀ item ∈ texted.document.texts, _
      rw [htexts]
      intro item hitem
      exact (mem_append.mp hitem).elim (h.items item) (hnumbered.items item)

/-- All pages are laid one behind the other, unless one is refused. -/
theorem laid_appendPages {pages : List (SourcePage × ℤ)} (hpages : ∀ page ∈ pages, page.1.IsUtf8) :
  ((∃ page ∈ pages, ∃ block ∈ buildTextBlocks isSiblingListMarker page.1.toOcrPage,
      block.TooLong) ∧ appendPages pages = .error .textBlockTooLong) ∨
    ∃ assembled, appendPages pages = .ok assembled ∧ Laid assembled
  := by
  unfold appendPages
  have hstart := laid_start
  generalize ({} : Assembled) = assembled at hstart ⊢
  induction pages generalizing assembled with
  | nil => exact .inr ⟨assembled, rfl, hstart⟩
  | cons page pages ih =>
    obtain ⟨hpage, hpages⟩ := forall_mem_cons.mp hpages
    rw [foldlM_cons]
    rcases hstart.append hpage with ⟨hlong, herror⟩ | ⟨next, hok, hnext⟩
    · left
      use ⟨page, mem_cons_self, hlong⟩
      rw [herror]
      rfl
    · rw [hok]
      rcases ih hpages next hnext with ⟨⟨other, hother, hlong⟩, herror⟩ | hall
      · exact .inl ⟨⟨other, mem_cons_of_mem _ hother, hlong⟩, herror⟩
      · exact .inr hall

/-! ### The rows slice the plain text -/

theorem decodeUtf8_eq_nil {text : List UInt8} (h : IsUtf8 text) :
  decodeUtf8 text = [] ↔ text = []
  := by
  constructor
  · intro hnil
    rw [← h, hnil]
    rfl
  · rintro rfl
    rfl

/-- The characters of joined texts are the joined characters. -/
theorem decodeUtf8_join {parts : List (List UInt8)} (h : ∀ part ∈ parts, IsUtf8 part) :
  IsUtf8 (Joined.join newline parts) ∧
    decodeUtf8 (Joined.join newline parts) = Joined.join newline.toNat (parts.map decodeUtf8)
  := by
  induction parts using reverseRecOn with
  | nil => decide
  | append_singleton parts part ih =>
    obtain ⟨hjoin, hdecode⟩ := ih fun other hother => h other (by simp [hother])
    have hpart := h part (by simp)
    rw [map_append, map_singleton, join_concat, join_concat, ← hdecode, addPart, addPart]
    by_cases hnil : Joined.join newline parts = []
    · rw [if_pos hnil, if_pos ((decodeUtf8_eq_nil hjoin).mpr hnil), hnil]
      exact ⟨hpart, rfl⟩
    · rw [if_neg hnil, if_neg (mt (decodeUtf8_eq_nil hjoin).mp hnil)]
      have hnewline : IsUtf8 [newline] := by decide
      have hstem := hjoin.append hnewline
      use hstem.append hpart
      rw [hstem.decodeUtf8_append, hjoin.decodeUtf8_append]
      rfl

/-- The rows of the chunker are those of the texts, where none is empty. -/
theorem foldl_step {texts : List (List UInt8)} (htexts : ∀ text ∈ texts, text ≠ []) {start : ℕ}
    {last : Option ℕ} {scan : OffsetScan} (hends : scan.hasText = last.isSome)
    (hcursor : scan.cursor = last.getD 0)
    (hkeys : ∀ index, start ≤ index → scan.table.lookup (slotRef kTexts index) = none) :
  ((texts.zipIdx start).foldl OffsetScan.step scan).table = scan.table ++
    List.zip (textRefs start texts.length)
      (rangesFrom last (texts.map fun text => (decodeUtf8 text).length))
  := by
  induction texts generalizing start last scan with
  | nil => simp [textRefs]
  | cons text texts ih =>
    obtain ⟨htext, htexts⟩ := forall_mem_cons.mp htexts
    have hstart : (if scan.hasText then scan.cursor + 1 else scan.cursor) = nextStart last := by
      rw [hends, hcursor]
      cases last with
      | none => rfl
      | some finish => rfl
    have hfree : (scan.table.lookup (slotRef kTexts start)).isSome = false := by
      rw [hkeys start le_rfl]
      rfl
    have hstep : scan.step (text, start) =
        { table := scan.table ++ [(slotRef kTexts start, nextStart last,
            nextStart last + (decodeUtf8 text).length)]
          cursor := nextStart last + (decodeUtf8 text).length
          hasText := true } := by
      simp [OffsetScan.step, hstart, hfree, htext]
    have hrest := @ih htexts (start + 1) (some (nextStart last + (decodeUtf8 text).length))
      (scan.step (text, start)) (by rw [hstep]; rfl) (by rw [hstep]; rfl) (by
        intro index hindex
        have hne : slotRef kTexts index ≠ slotRef kTexts start :=
          fun heq => absurd (slotRef_injective kTexts heq) (by omega)
        rw [hstep]
        simp [lookup_append, hkeys index (by omega), lookup_cons, beq_false_of_ne hne])
    rw [zipIdx_cons, foldl_cons, hrest, hstep, append_assoc]
    rfl

/-- What the rows of a document say: there is one for each item, in order, and it slices the text
of the item out of the plain text, with nothing between two rows but one newline; the runs of an
item are inside its text, and the chunker finds the same rows. -/
structure SlicesPlainText (assembled : Assembled) : Prop where
  refs : assembled.document.texts.map (·.selfRef) = textRefs 0 assembled.document.texts.length
  rows : assembled.textOffsets.map TextOffset.selfRef
    = assembled.document.texts.map (·.selfRef)
  utf8 : IsUtf8 assembled.plainText
  slices : assembled.textOffsets.map
      (fun offset => encodeUtf8 (Joined.slice (decodeUtf8 assembled.plainText) offset.range))
    = assembled.document.texts.map (·.body.text)
  shown : ∀ item ∈ assembled.document.texts,
    item.body.text = withoutMarker item.body.label item.content.orig
  tiles : Tiles newline.toNat (decodeUtf8 assembled.plainText)
    (assembled.textOffsets.map TextOffset.range)
  runs : ∀ item ∈ assembled.document.texts, ∀ run ∈ item.body.spans,
    run.start < run.finish ∧ run.finish ≤ (decodeUtf8 item.body.text).length
  derived : deriveOffsets assembled.document
    = assembled.textOffsets.map fun offset => (offset.selfRef, offset.range)

theorem Laid.slices {assembled : Assembled} (h : Laid assembled) :
  SlicesPlainText assembled
  := by
  let texts := assembled.document.texts.map (·.body.text)
  have hutf8 : ∀ text ∈ texts, IsUtf8 text := by
    intro text htext
    obtain ⟨item, hitem, rfl⟩ := mem_map.mp htext
    exact (h.items item hitem).body.utf8
  have hnonempty : ∀ text ∈ texts, text ≠ [] := by
    intro text htext
    obtain ⟨item, hitem, rfl⟩ := mem_map.mp htext
    exact (h.items item hitem).body.nonempty
  have hpoints : ∀ points ∈ texts.map decodeUtf8, points ≠ [] := by
    intro points hmem
    obtain ⟨text, htext, rfl⟩ := mem_map.mp hmem
    exact mt (decodeUtf8_eq_nil (hutf8 text htext)).mp (hnonempty text htext)
  obtain ⟨hplainUtf8, hplain⟩ := decodeUtf8_join hutf8
  have hsliced := sliced_join newline.toNat hpoints
  have hlengths : (texts.map decodeUtf8).map length
      = assembled.document.texts.map AssembledText.length := by
    rw [map_map, map_map]
    rfl
  have hplainText : assembled.plainText = Joined.join newline texts := h.plainText
  rw [hlengths, ← h.ranges, ← hplain, ← hplainText] at hsliced
  constructor
  case refs => exact h.refs
  case rows => rw [h.offsetRefs, h.refs]
  case utf8 =>
    rw [hplainText]
    exact hplainUtf8
  case slices =>
    have := congrArg (map encodeUtf8) hsliced.slices
    rw [map_map, map_map, map_map] at this
    apply this.trans
    apply (map_congr_left hutf8).trans
    exact map_id' texts
  case shown => exact fun item hitem => (h.items item hitem).shown
  case tiles => exact hsliced.tiles
  case runs => exact fun item hitem => (h.items item hitem).body.spans
  case derived =>
    have hscan := @foldl_step texts hnonempty 0 none {} rfl rfl fun _ _ => rfl
    have hrefs : textRefs 0 texts.length = assembled.textOffsets.map TextOffset.selfRef := by
      rw [h.offsetRefs, length_map]
    rw [hrefs, map_map] at hscan
    apply hscan.trans
    change [] ++ zip _ (rangesFrom none (assembled.document.texts.map AssembledText.length)) = _
    rw [← h.ranges, zip_map', nil_append]

/-- The rows of all pages slice the plain text, unless a block of a page is refused. -/
theorem textOffsets_slice (pages : List (SourcePage × ℤ))
    (hpages : ∀ page ∈ pages, page.1.IsUtf8) :
  ((∃ page ∈ pages, ∃ block ∈ buildTextBlocks isSiblingListMarker page.1.toOcrPage,
      block.TooLong) ∧ appendPages pages = .error .textBlockTooLong) ∨
    ∃ assembled, appendPages pages = .ok assembled ∧ SlicesPlainText assembled
  := by
  rcases laid_appendPages hpages with hlong | ⟨assembled, hok, hlaid⟩
  · exact .inl hlong
  · exact .inr ⟨assembled, hok, hlaid.slices⟩

/-- Two pages, with one line each. -/
def twoPages : List (SourcePage × ℤ) :=
  [({ lines := [⟨[0x2D, 0x20, 0x61], [⟨0, 0⟩]⟩] }, 1),
    ({ lines := [⟨[0xC3, 0xA9], [⟨0, 0⟩]⟩] }, 2)]

theorem textOffsets_slice_twoPages :
  ((∃ page ∈ twoPages, ∃ block ∈ buildTextBlocks isSiblingListMarker page.1.toOcrPage,
      block.TooLong) ∧ appendPages twoPages = .error .textBlockTooLong) ∨
    ∃ assembled, appendPages twoPages = .ok assembled ∧ SlicesPlainText assembled
  := by
  apply textOffsets_slice
  simp only [twoPages, SourcePage.IsUtf8, List.mem_cons, List.not_mem_nil, or_false,
    forall_eq_or_imp, forall_eq]
  decide

end GRParse.Assembly
