import GRParse.Document.Projection

/-!
# What the projector places

The pages of the projector are determined by the order in which it places the items: each
page is what its own items add to an empty page.  We follow the projector by that order, and
read off what the pages hold all together.
-/

namespace GRParse

open Containers List Projector

/-! ### Landings -/

/-- An item put onto a page, with the place in the text where it starts. -/
structure Landing where
  page : ℤ
  slot : Slot
  body : Bool
  utfStart : ℕ

namespace Landing

/-- The number of code points an item adds to the text. -/
def utfLength (landing : Landing) : ℕ :=
  match landing.slot with
  | .text item => utf8CodepointCount (textView item).text
  | .table _ | .picture _ | .group _ => 0

/-- Where a text that lands lies in the text of the document. -/
def offset (source : TextSource) (landing : Landing) : Option TextOffset :=
  match landing.slot with
  | .text _ =>
    some ⟨landing.slot.ref, landing.utfStart, landing.utfStart + landing.utfLength, source⟩
  | .table _ | .picture _ | .group _ => none

/-- What an item adds to its page. -/
def add (source : TextSource) (landing : Landing) (page : PageData) : PageData :=
  match landing.slot with
  | .text item =>
    page.addText item
      ⟨landing.slot.ref, landing.utfStart, landing.utfStart + landing.utfLength, source⟩ landing.body
  | .table item => page.addTable item landing.body
  | .picture item => page.addPicture item landing.body
  | .group item => page.addGroup item

end Landing

namespace Slot

def text? : Slot → Option BaseTextItem
  | .text item => some item
  | _ => none

def table? : Slot → Option TableItem
  | .table item => some item
  | _ => none

def picture? : Slot → Option PictureItem
  | .picture item => some item
  | _ => none

def group? : Slot → Option GroupItem
  | .group item => some item
  | _ => none

end Slot

/-- The pages after the given landings. -/
def pagesAfter (source : TextSource) (log : List Landing) : Map ℤ PageData :=
  log.foldl (fun pages landing => Projector.addTo pages landing.page (landing.add source)) ∅

/-- A page after the given landings on it. -/
def pageAfter (source : TextSource) (log : List Landing) : PageData :=
  log.foldl (fun page landing => landing.add source page) {}

/-- The landings on a page. -/
def landingsOn (log : List Landing) (pageNo : ℤ) : List Landing :=
  log.filter fun landing => landing.page = pageNo

/-- Each page is what its own landings make of it. -/
theorem lookup_pagesAfter (source : TextSource) (log : List Landing) (pageNo : ℤ) :
  (pagesAfter source log).lookup pageNo =
    if landingsOn log pageNo = [] then none else some (pageAfter source (landingsOn log pageNo))
  := by
  induction log using reverseRecOn with
  | nil => rfl
  | append_singleton log landing ih =>
    have hfold : pagesAfter source (log ++ [landing]) =
        addTo (pagesAfter source log) landing.page (landing.add source) := by
      simp [pagesAfter]
    rw [hfold, addTo]
    by_cases h : landing.page = pageNo
    · subst h
      have hon : landingsOn (log ++ [landing]) landing.page =
          landingsOn log landing.page ++ [landing] := by
        simp [landingsOn]
      rw [Finmap.lookup_insert, ih, hon]
      by_cases hnil : landingsOn log landing.page = [] <;> simp [hnil, pageAfter]
    · have hon : landingsOn (log ++ [landing]) pageNo = landingsOn log pageNo := by
        simp [landingsOn, h]
      rw [Finmap.lookup_insert_of_ne _ (Ne.symm h), ih, hon]

theorem getD_lookup_pagesAfter (source : TextSource) (log : List Landing) (pageNo : ℤ) :
  ((pagesAfter source log).lookup pageNo).getD {} = pageAfter source (landingsOn log pageNo)
  := by
  rw [lookup_pagesAfter]
  split
  next h => rw [h]; rfl
  next => rfl

/-- What landings add to a page, field by field. -/
structure Adds (source : TextSource) (log : List Landing) (page page' : PageData) : Prop where
  texts : page'.texts = page.texts ++ log.filterMap fun landing => landing.slot.text?
  tables : page'.tables = page.tables ++ log.filterMap fun landing => landing.slot.table?
  pictures : page'.pictures = page.pictures ++ log.filterMap fun landing => landing.slot.picture?
  groups : page'.groups = page.groups ++ log.filterMap fun landing => landing.slot.group?
  textOffsets : page'.textOffsets = page.textOffsets ++ log.filterMap (Landing.offset source)

namespace Adds

variable {source : TextSource} {log log' : List Landing} {page page' page'' : PageData}

theorem refl (source : TextSource) (page : PageData) :
  Adds source [] page page
  := by
  constructor <;> simp

theorem trans (h : Adds source log page page') (h' : Adds source log' page' page'') :
  Adds source (log ++ log') page page''
  := by
  constructor
  · rw [h'.texts, h.texts, filterMap_append, append_assoc]
  · rw [h'.tables, h.tables, filterMap_append, append_assoc]
  · rw [h'.pictures, h.pictures, filterMap_append, append_assoc]
  · rw [h'.groups, h.groups, filterMap_append, append_assoc]
  · rw [h'.textOffsets, h.textOffsets, filterMap_append, append_assoc]

/-- A landing adds its item, and the offset of a text. -/
theorem single (source : TextSource) (landing : Landing) (page : PageData) :
  Adds source [landing] page (landing.add source page)
  := by
  obtain ⟨pageNo, slot, body, utfStart⟩ := landing
  cases slot <;> cases body <;> constructor <;>
    simp [Landing.add, Landing.offset, PageData.addText, PageData.addTable, PageData.addPicture,
      PageData.addGroup, PageData.addBodyOrder, Slot.text?, Slot.table?, Slot.picture?,
      Slot.group?]

/-- A page holds what landed on it. -/
theorem pageAfter (source : TextSource) (log : List Landing) :
  Adds source log {} (pageAfter source log)
  := by
  induction log using reverseRecOn with
  | nil => exact refl source {}
  | append_singleton log landing ih =>
    have hfold : GRParse.pageAfter source (log ++ [landing]) =
        landing.add source (GRParse.pageAfter source log) := by
      simp [GRParse.pageAfter]
    rw [hfold]
    exact ih.trans (single source landing _)

end Adds

/-! ### Offsets -/

/-- Offsets that follow each other from a start to an end. -/
def Tiles : ℕ → List TextOffset → ℕ → Prop
  | start, [], stop => start = stop
  | start, offset :: offsets, stop =>
    offset.utfStart = start ∧ start ≤ offset.utfEnd ∧ Tiles offset.utfEnd offsets stop

theorem Tiles.append {start middle stop : ℕ} {left right : List TextOffset}
    (hleft : Tiles start left middle) (hright : Tiles middle right stop) :
  Tiles start (left ++ right) stop
  := by
  induction left generalizing start with
  | nil =>
    obtain rfl := hleft
    exact hright
  | cons offset left ih =>
    obtain ⟨hstart, hle, hrest⟩ := hleft
    exact ⟨hstart, hle, ih hrest⟩

/-! ### Following the projector -/

/-- What the projector has taken care of: what has landed, and the groups that wait for the
next item. -/
def Projector.taken (p : Projector) (log : List Landing) : List Slot :=
  log.map (·.slot) ++ p.pendingGroups.map .group

/-- The projector has made the given landings. -/
structure Traced (document : Document) (source : TextSource) (start : ℕ) (p : Projector)
    (log : List Landing) : Prop where
  pages : p.pages = pagesAfter source log
  mem : ∀ slot ∈ p.taken log, slot ∈ document.slots
  visited : ∀ ref, ref ∈ p.visited ↔ ref ∈ (p.taken log).map Slot.ref
  nodup : ((p.taken log).map Slot.ref).Nodup
  tiles : Tiles start (log.filterMap (Landing.offset source)) p.utfCursor
  named : ∀ landing ∈ log, 0 < landing.slot.page → landing.page = landing.slot.page

namespace Traced

variable {document : Document} {source : TextSource} {start : ℕ} {p : Projector}
  {log : List Landing}

/-- Nothing has landed at the start. -/
theorem init (document : Document) (source : TextSource) (start : ℕ) :
  Traced document source start { utfCursor := start } []
  := by
  constructor <;> simp [taken, pagesAfter, Tiles]

/-- The landing of a group that waited. -/
def groupLanding (pageNo : ℤ) (group : GroupItem) : Landing where
  page := pageNo
  slot := .group group
  body := false
  utfStart := 0

/-- The groups that waited land on the page they are flushed to. -/
theorem flushGroups (h : Traced document source start p log) (pageNo : ℤ) :
  Traced document source start (p.flushGroups pageNo)
    (log ++ p.pendingGroups.map (groupLanding pageNo))
  := by
  have htaken : (p.flushGroups pageNo).taken
      (log ++ p.pendingGroups.map (groupLanding pageNo)) = p.taken log := by
    simp [Projector.taken, Projector.flushGroups, groupLanding, Function.comp_def]
  have hoffsets : (p.pendingGroups.map (groupLanding pageNo)).filterMap (Landing.offset source) =
      [] := by
    simp [Landing.offset, groupLanding]
  constructor
  case pages =>
    rw [pagesAfter, foldl_append, foldl_map]
    simp only [Projector.flushGroups, h.pages]
    rfl
  case mem => rw [htaken]; exact h.mem
  case visited => rw [htaken]; exact h.visited
  case nodup => rw [htaken]; exact h.nodup
  case tiles => rw [filterMap_append, hoffsets, append_nil]; exact h.tiles
  case named =>
    intro landing hlanding hpage
    obtain hold | hnew := mem_append.mp hlanding
    · exact h.named landing hold hpage
    · obtain ⟨group, -, rfl⟩ := mem_map.mp hnew
      exact absurd hpage (lt_irrefl 0)

/-- One more slot is taken care of. -/
theorem taken_cons {taken taken' : List Slot} {visited : Finset String} {slot : Slot}
    (htaken : taken'.Perm (slot :: taken))
    (hvisited : ∀ ref, ref ∈ visited ↔ ref ∈ taken.map Slot.ref) (hnew : slot.ref ∉ visited)
    (hnodup : (taken.map Slot.ref).Nodup) :
  (∀ ref, ref ∈ insert slot.ref visited ↔ ref ∈ taken'.map Slot.ref) ∧
    (taken'.map Slot.ref).Nodup
  := by
  have hrefs : (taken'.map Slot.ref).Perm (slot.ref :: taken.map Slot.ref) :=
    htaken.map Slot.ref
  constructor
  · intro ref
    rw [Finset.mem_insert, hvisited, hrefs.mem_iff, mem_cons]
  · rw [hrefs.nodup_iff, nodup_cons, ← hvisited]
    exact ⟨hnew, hnodup⟩

/-- An item lands on a page, when no group waits. -/
theorem land (h : Traced document source start p log) (hpending : p.pendingGroups = [])
    {landing : Landing} (hslot : landing.slot ∈ document.slots)
    (hnew : landing.slot.ref ∉ p.visited) (hstart : landing.utfStart = p.utfCursor)
    (hpage : 0 < landing.slot.page → landing.page = landing.slot.page) (current : ℤ) :
  Traced document source start
    { visited := insert landing.slot.ref p.visited
      pages := Projector.addTo p.pages landing.page (landing.add source)
      pendingGroups := []
      currentPage := current
      utfCursor := p.utfCursor + landing.utfLength }
    (log ++ [landing])
  := by
  have htaken : ((log ++ [landing]).map (·.slot)).Perm (landing.slot :: p.taken log) := by
    simp [taken, hpending]
  obtain ⟨hvisited, hnodup⟩ := taken_cons htaken h.visited hnew h.nodup
  have htiles : Tiles p.utfCursor ([landing].filterMap (Landing.offset source))
      (p.utfCursor + landing.utfLength) := by
    cases hkind : landing.slot <;>
      simp [Landing.offset, Landing.utfLength, hkind, Tiles, hstart]
  constructor
  case pages => simp [pagesAfter, h.pages]
  case mem =>
    intro slot hmem
    simp only [taken, map_nil, append_nil] at hmem
    obtain rfl | hold := mem_cons.mp (htaken.mem_iff.mp hmem)
    · exact hslot
    · exact h.mem slot hold
  case visited => simpa [taken, hpending] using hvisited
  case nodup => simpa [taken, hpending] using hnodup
  case tiles =>
    rw [filterMap_append]
    exact h.tiles.append htiles
  case named =>
    intro other hother
    obtain hold | hlast := mem_append.mp hother
    · exact h.named other hold
    · obtain rfl := mem_singleton.mp hlast
      exact hpage

/-- A group starts to wait. -/
theorem openGroup (h : Traced document source start p log) {group : GroupItem}
    (hslot : .group group ∈ document.slots) (hnew : group.selfRef ∉ p.visited) :
  Traced document source start (p.openGroup group) log
  := by
  have htaken : ((p.openGroup group).taken log).Perm (.group group :: p.taken log) := by
    simp [Projector.taken, Projector.openGroup, ← append_assoc]
  obtain ⟨hvisited, hnodup⟩ := taken_cons htaken h.visited hnew h.nodup
  constructor
  case pages => exact h.pages
  case mem =>
    intro slot hmem
    obtain rfl | hold := mem_cons.mp (htaken.mem_iff.mp hmem)
    · exact hslot
    · exact h.mem slot hold
  case visited => exact hvisited
  case nodup => exact hnodup
  case tiles => exact h.tiles
  case named => exact h.named

/-- Whatever is visited is taken care of. -/
theorem visit (h : Traced document source start p log) (body : Bool) {slot : Slot}
    (hslot : slot ∈ document.slots) (hnew : slot.ref ∉ p.visited) :
  ∃ log', Traced document source start (p.visit source body slot) log'
  := by
  cases hkind : slot with
  | group group =>
    subst hkind
    exact ⟨log, h.openGroup hslot hnew⟩
  | text _ | table _ | picture _ =>
    let landing : Landing := ⟨p.settle slot.page, slot, body, p.utfCursor⟩
    have hflushed := h.flushGroups landing.page
    have hpage : 0 < slot.page → landing.page = slot.page := fun hpos => if_pos hpos
    have hland := @land _ _ _ _ _ hflushed rfl landing hslot hnew rfl hpage landing.page
    subst hkind
    exact ⟨_, hland⟩

/-- A walk visits slot after slot. -/
theorem walk (h : Traced document source start p log) (body : Bool) (children : List RefItem) :
  ∃ log', Traced document source start (Projector.walk document source body children p) log'
  := by
  induction children, p using walk.induct document source body generalizing log with
  | case1 p =>
    rw [walk]
    exact ⟨log, h⟩
  | case2 child rest p hslot ih =>
    rw [walk_cons, hslot]
    exact ih h
  | case3 child rest p slot hslot hold ih =>
    rw [walk_cons, hslot]
    simp only [hold, if_true]
    exact ih h
  | case4 child rest p slot hslot hnew ih =>
    obtain ⟨hmem, href⟩ := Document.mem_of_slotOf hslot
    obtain ⟨log', hvisit⟩ := h.visit body hmem (href ▸ hnew)
    rw [walk_cons, hslot]
    simp only [hnew, if_false]
    exact ih hvisit

/-- The leftovers among the given slots are visited, whatever was visited stays so. -/
theorem placeLeftovers_slots (slots : List Slot) (hslots : ∀ slot ∈ slots, slot ∈ document.slots)
    (h : Traced document source start p log) :
  ∃ log', Traced document source start (slots.foldl (Projector.placeLeftover source) p) log' ∧
    p.visited ⊆ (slots.foldl (Projector.placeLeftover source) p).visited ∧
    ∀ slot ∈ slots, slot.ref ∈ (slots.foldl (Projector.placeLeftover source) p).visited
  := by
  induction slots generalizing p log with
  | nil => exact ⟨log, h, Finset.Subset.refl _, by simp⟩
  | cons slot slots ih =>
    have hstep : ∃ log', Traced document source start (p.placeLeftover source slot) log' ∧
        p.visited ⊆ (p.placeLeftover source slot).visited ∧
        slot.ref ∈ (p.placeLeftover source slot).visited := by
      unfold placeLeftover
      split
      next hold => exact ⟨log, h, Finset.Subset.refl _, hold⟩
      next hnew =>
        obtain ⟨log', hvisit⟩ := h.visit slot.layerIsBody (hslots slot mem_cons_self) hnew
        refine ⟨log', hvisit, ?_, ?_⟩ <;> rw [visited_visit]
        · exact Finset.subset_insert _ _
        · exact Finset.mem_insert_self _ _
    obtain ⟨log₁, h₁, hmono₁, hslot⟩ := hstep
    obtain ⟨log₂, h₂, hmono₂, hrest⟩ :=
      ih (fun other hother => hslots other (mem_cons_of_mem slot hother)) h₁
    refine ⟨log₂, h₂, hmono₁.trans hmono₂, ?_⟩
    intro other hother
    obtain rfl | hother := mem_cons.mp hother
    · exact hmono₂ hslot
    · exact hrest other hother

/-- When everything is visited and no group waits, everything has landed. -/
theorem perm_slots (h : Traced document source start p log) (hpending : p.pendingGroups = [])
    (hall : ∀ slot ∈ document.slots, slot.ref ∈ p.visited)
    (hdistinct : (document.slots.map Slot.ref).Nodup) :
  (log.map (·.slot)).Perm document.slots
  := by
  have htaken : p.taken log = log.map (·.slot) := by
    simp [taken, hpending]
  have hnodup := h.nodup
  rw [htaken] at hnodup
  rw [perm_ext_iff_of_nodup hnodup.of_map hdistinct.of_map]
  intro slot
  constructor
  · intro hslot
    exact h.mem slot (htaken ▸ hslot)
  · intro hslot
    have href := (h.visited slot.ref).mp (hall slot hslot)
    rw [htaken] at href
    obtain ⟨other, hother, heq⟩ := mem_map.mp href
    have := inj_on_of_nodup_map hdistinct (h.mem other (htaken ▸ hother)) hslot heq
    exact this ▸ hother

/-- When the projector is done everything has landed. -/
theorem placeAll (document : Document) (source : TextSource) (start : ℕ)
    (hdistinct : (document.slots.map Slot.ref).Nodup) :
  ∃ log, Traced document source start
      (Projector.placeAll document source { utfCursor := start }) log ∧
    (log.map (·.slot)).Perm document.slots
  := by
  obtain ⟨_, hbody⟩ := (init document source start).walk true (rootChildren document.body)
  obtain ⟨_, hfurniture⟩ := hbody.walk false (rootChildren document.furniture)
  obtain ⟨_, hleft, -, hall⟩ := hfurniture.placeLeftovers_slots document.slots fun _ h => h
  exact ⟨_, hleft.flushGroups _, (hleft.flushGroups _).perm_slots rfl hall hdistinct⟩

end Traced

/-! ### The pages all together -/

variable {numbers : List ℤ} {log : List Landing}

/-- Every landing is on one of the pages, if these are all different and all there. -/
theorem flatMap_landingsOn_perm (hnodup : numbers.Nodup)
    (hall : ∀ landing ∈ log, landing.page ∈ numbers) :
  (numbers.flatMap (landingsOn log)).Perm log
  := by
  induction numbers generalizing log with
  | nil =>
    cases log with
    | nil => exact List.Perm.refl []
    | cons landing log => exact absurd (hall landing mem_cons_self) not_mem_nil
  | cons number numbers ih =>
    obtain ⟨hnumber, hnodup⟩ := nodup_cons.mp hnodup
    let others := log.filter fun landing => !decide (landing.page = number)
    have hothers : numbers.flatMap (landingsOn log) = numbers.flatMap (landingsOn others) := by
      apply flatMap_congr
      intro other hother
      have hne : other ≠ number := fun h => hnumber (h ▸ hother)
      simp only [landingsOn, others, filter_filter]
      apply filter_congr
      intro landing _
      by_cases h : landing.page = other <;> simp [h, hne]
    have hperm : (numbers.flatMap (landingsOn others)).Perm others := by
      apply ih hnodup
      intro landing hlanding
      obtain ⟨hmem, hpage⟩ := mem_filter.mp hlanding
      exact (mem_cons.mp (hall landing hmem)).resolve_left (by simpa using hpage)
    rw [flatMap_cons, hothers]
    exact (hperm.append_left _).trans (filter_append_perm _ log)

/-- What is read off all landings is what is read off them page by page. -/
theorem flatMap_filterMap_landingsOn {α : Type} (f : Landing → Option α) (log : List Landing)
    (numbers : List ℤ) :
  (numbers.flatMap fun number => (landingsOn log number).filterMap f) =
    (numbers.flatMap (landingsOn log)).filterMap f
  := by
  induction numbers with
  | nil => rfl
  | cons number numbers ih => rw [flatMap_cons, ih, flatMap_cons, filterMap_append]

/-- Each text of a page has its offset, which is as long as the text. -/
def Measured (source : TextSource) (item : BaseTextItem) (offset : TextOffset) : Prop :=
  offset.selfRef = selfRefOf item ∧
    offset.utfEnd = offset.utfStart + (textView item).text.length ∧ offset.source = source

/-- Pages that hold the items of a document between them, each once. -/
structure Distributes (document : Document) (pages : List PageData) : Prop where
  texts : (pages.flatMap (·.texts)).Perm document.texts
  tables : (pages.flatMap (·.tables)).Perm document.tables
  pictures : (pages.flatMap (·.pictures)).Perm document.pictures
  groups : (pages.flatMap (·.groups)).Perm document.groups

theorem selfRef_textView (item : BaseTextItem) :
  (textView item).selfRef = selfRefOf item
  := by
  rcases item with _ | ⟨_, base, _⟩ | _ <;> rfl

theorem filterMap_slots (document : Document) :
  document.slots.filterMap Slot.text? = document.texts ∧
    document.slots.filterMap Slot.table? = document.tables ∧
    document.slots.filterMap Slot.picture? = document.pictures ∧
    document.slots.filterMap Slot.group? = document.groups
  := by
  simp [Document.slots, filterMap_map, Function.comp_def, Slot.text?, Slot.table?,
    Slot.picture?, Slot.group?]

/-- The pages are those something landed on. -/
theorem mem_keys_pagesAfter (source : TextSource) (log : List Landing) (pageNo : ℤ) :
  pageNo ∈ (pagesAfter source log).keys ↔ ∃ landing ∈ log, landing.page = pageNo
  := by
  rw [Finmap.mem_keys, ← Finmap.lookup_isSome, lookup_pagesAfter]
  simp [landingsOn, apply_ite Option.isSome]

/-- The texts and the offsets of landings belong together. -/
theorem forall₂_measured (source : TextSource) (log : List Landing) :
  List.Forall₂ (Measured source) (log.filterMap fun landing => landing.slot.text?)
    (log.filterMap (Landing.offset source))
  := by
  induction log with
  | nil => exact List.Forall₂.nil
  | cons landing log ih =>
    obtain ⟨pageNo, slot, body, utfStart⟩ := landing
    cases slot with
    | text item =>
      have hlength : utf8CodepointCount (textView item).text = (textView item).text.length :=
        Utf8.codepointCount_eq_length _
      exact .cons ⟨selfRef_textView item, congrArg (utfStart + ·) hlength, rfl⟩ ih
    | table _ | picture _ | group _ => exact ih

variable {document : Document}

/-- What the pages hold all together, read off the landings. -/
theorem flatMap_pageEvent_perm {α : Type} {f : PageData → List α} {read : Slot → Option α}
    {source : TextSource} (hread : ∀ pageNo,
      f (document.pageEvent (pagesAfter source log) pageNo) =
        (landingsOn log pageNo).filterMap fun landing => read landing.slot)
    (hnodup : numbers.Nodup) (hall : ∀ landing ∈ log, landing.page ∈ numbers)
    (hitems : (log.map (·.slot)).Perm document.slots) :
  ((numbers.map (document.pageEvent (pagesAfter source log))).flatMap f).Perm
    (document.slots.filterMap read)
  := by
  have hflat : (numbers.map (document.pageEvent (pagesAfter source log))).flatMap f =
      (numbers.flatMap (landingsOn log)).filterMap fun landing => read landing.slot := by
    rw [flatMap_map, ← flatMap_filterMap_landingsOn]
    exact flatMap_congr fun pageNo _ => hread pageNo
  rw [hflat]
  refine ((flatMap_landingsOn_perm hnodup hall).filterMap _).trans ?_
  simpa [filterMap_map, Function.comp_def] using hitems.filterMap read

/-- The event of a page holds what landed on the page. -/
theorem adds_pageEvent (document : Document) (source : TextSource) (log : List Landing)
    (pageNo : ℤ) :
  Adds source (landingsOn log pageNo) {} (document.pageEvent (pagesAfter source log) pageNo)
  := by
  have hpage := Adds.pageAfter source (landingsOn log pageNo)
  rw [← getD_lookup_pagesAfter] at hpage
  obtain ⟨texts, tables, pictures, groups, textOffsets⟩ := hpage
  exact ⟨texts, tables, pictures, groups, textOffsets⟩

/-- The events of pages everything landed on hold the items of the document. -/
theorem distributes_pageEvents {source : TextSource} (hnodup : numbers.Nodup)
    (hall : ∀ landing ∈ log, landing.page ∈ numbers)
    (hitems : (log.map (·.slot)).Perm document.slots) :
  Distributes document (numbers.map (document.pageEvent (pagesAfter source log)))
  := by
  have hadds := adds_pageEvent document source log
  obtain ⟨texts, tables, pictures, groups⟩ := filterMap_slots document
  constructor
  · rw [← texts]
    exact flatMap_pageEvent_perm (fun pageNo => (hadds pageNo).texts) hnodup hall hitems
  · rw [← tables]
    exact flatMap_pageEvent_perm (fun pageNo => (hadds pageNo).tables) hnodup hall hitems
  · rw [← pictures]
    exact flatMap_pageEvent_perm (fun pageNo => (hadds pageNo).pictures) hnodup hall hitems
  · rw [← groups]
    exact flatMap_pageEvent_perm (fun pageNo => (hadds pageNo).groups) hnodup hall hitems

/-- The order in which the items of a document land, and the pages they land on. -/
structure Lands (document : Document) (source : TextSource) (start stop : ℕ)
    (log : List Landing) (numbers : List ℤ) : Prop where
  items : (log.map (·.slot)).Perm document.slots
  increasing : numbers.Pairwise (· < ·)
  numbers : ∀ pageNo, pageNo ∈ numbers ↔
    (∃ landing ∈ log, landing.page = pageNo) ∨ 0 < pageNo ∧ pageNo ∈ document.pages.keys
  named : ∀ landing ∈ log, 0 < landing.slot.page → landing.page = landing.slot.page
  tiles : Tiles start (log.filterMap (Landing.offset source)) stop

theorem Lands.mem_numbers {source : TextSource} {start stop : ℕ}
    (h : Lands document source start stop log numbers) :
  ∀ landing ∈ log, landing.page ∈ numbers
  := fun landing hlanding => (h.numbers landing.page).mpr (.inl ⟨landing, hlanding, rfl⟩)

/-- The projection of a document whose items carry different references comes of an order in
which they land. -/
theorem exists_lands (hdistinct : (document.slots.map Slot.ref).Nodup)
    (hnames : document.namesAPage = true) (source : TextSource) (start : ℕ) :
  ∃ log numbers,
    (projectPageData document source start).1 =
      numbers.map (document.pageEvent (pagesAfter source log)) ∧
    Lands document source start (projectPageData document source start).2 log numbers
  := by
  obtain ⟨log, htraced, hitems⟩ := Traced.placeAll document source start hdistinct
  have hproject : projectPageData document source start =
      (((document.namedPages (pagesAfter source log)).sort (· ≤ ·)).map
        (document.pageEvent (pagesAfter source log)),
      (placeAll document source { utfCursor := start }).utfCursor) := by
    simp only [projectPageData, hnames, if_true, htraced.pages]
  rw [hproject]
  refine ⟨log, _, rfl, hitems, (Finset.sortedLT_sort _).pairwise, ?_, htraced.named,
    htraced.tiles⟩
  intro pageNo
  rw [Finset.mem_sort, Document.namedPages, Finset.mem_union, mem_keys_pagesAfter,
    Finset.mem_filter, and_comm]

/-- The events of the pages of a document whose text runs from `start` to `stop`: they hold
its items between them, in the order of their numbers, and the offsets of the texts tile the
text in the order in which they were placed. -/
structure Splits (document : Document) (source : TextSource) (start stop : ℕ)
    (pages : List PageData) (order : List Landing) : Prop where
  distributes : Distributes document pages
  increasing : (pages.map (·.pageNumber)).Pairwise (· < ·)
  items : (order.map (·.slot)).Perm document.slots
  landed : ∀ page ∈ pages, Adds source (landingsOn order page.pageNumber) {} page
  numbers : ∀ pageNo, pageNo ∈ pages.map (·.pageNumber) ↔
    (∃ landing ∈ order, landing.page = pageNo) ∨ 0 < pageNo ∧ pageNo ∈ document.pages.keys
  named : ∀ landing ∈ order, 0 < landing.slot.page → landing.page = landing.slot.page
  tiles : Tiles start (order.filterMap (Landing.offset source)) stop
  measured : ∀ page ∈ pages, List.Forall₂ (Measured source) page.texts page.textOffsets

/-- The projection of a document whose items carry different references, and which names a
page, loses and repeats nothing. -/
theorem splits_projectPageData {document : Document}
    (hdistinct : (document.slots.map Slot.ref).Nodup) (hnames : document.namesAPage = true)
    (source : TextSource) (start : ℕ) :
  ∃ order, Splits document source start (projectPageData document source start).2
    (projectPageData document source start).1 order
  := by
  obtain ⟨log, numbers, hpages, hlands⟩ := exists_lands hdistinct hnames source start
  have hnumber : (numbers.map (document.pageEvent (pagesAfter source log))).map (·.pageNumber) =
      numbers := by
    simp [Function.comp_def, Document.pageEvent]
  have hadds := adds_pageEvent document source log
  refine ⟨log, ?_⟩
  rw [hpages]
  constructor
  case distributes =>
    exact distributes_pageEvents (hlands.increasing.imp ne_of_lt) hlands.mem_numbers hlands.items
  case increasing => rw [hnumber]; exact hlands.increasing
  case items => exact hlands.items
  case landed =>
    intro page hpage
    obtain ⟨pageNo, -, rfl⟩ := List.mem_map.mp hpage
    exact hadds pageNo
  case numbers => rw [hnumber]; exact hlands.numbers
  case named => exact hlands.named
  case tiles => exact hlands.tiles
  case measured =>
    intro page hpage
    obtain ⟨pageNo, -, rfl⟩ := List.mem_map.mp hpage
    rw [(hadds pageNo).texts, (hadds pageNo).textOffsets]
    exact forall₂_measured source (landingsOn log pageNo)

/-- A document whose only group holds itself and a text of the second page; another text is
in no tree, and the pages mention one that nothing is on. -/
def cyclicGroup : Document where
  body := some { children := [⟨"#/groups/0"⟩, ⟨"#/texts/7"⟩] }
  groups := [{ selfRef := "#/groups/0", children := [⟨"#/groups/0"⟩, ⟨"#/texts/1"⟩] }]
  texts := [.code { selfRef := "#/texts/0", text := "né" },
    .code { selfRef := "#/texts/1", text := "ab", prov := [{ pageNo := 2 }] }]
  pages := Finmap.singleton 3 { pageNo := 3 }

/-- A group that holds itself is placed once. -/
theorem splits_projectPageData_cyclic :
  ∃ order, Splits cyclicGroup .ocr 10 (projectPageData cyclicGroup .ocr 10).2
    (projectPageData cyclicGroup .ocr 10).1 order
  := splits_projectPageData (by decide) (by decide) .ocr 10

end GRParse
