import GRParse.Document.SplitSiblings

/-!
# A split keeps the content of an item

The pieces of an item have all of its text but the spaces between them, its spans on the same
characters, and its boxes in strips; and they stand in the document where the item stood.
-/

namespace GRParse.Splitting

open Containers Protobuf Layout Utf8 Stretches List
open Joining (IntSpan InlineSpan)
open Hyphenation.Bytes (isAsciiSpace trimLeft trimRight)

/-! ### Text -/

/-- The bytes of a text that are not white space. -/
def solid (text : List UInt8) : List UInt8 :=
  text.filter fun byte => !isAsciiSpace byte

theorem solid_append (front back : List UInt8) :
  solid (front ++ back) = solid front ++ solid back
  := filter_append front back

theorem solid_eq_nil {text : List UInt8} (h : ∀ byte ∈ text, isAsciiSpace byte) :
  solid text = []
  := by
  rw [solid, filter_eq_nil_iff]
  intro byte hbyte
  simp [h byte hbyte]

/-- Trimming takes nothing but white space. -/
theorem solid_trimmed (text : List UInt8) :
  solid (trimmed text) = solid text
  := by
  have hleft : solid (trimLeft text) = solid text := by
    conv_rhs => rw [← takeWhile_append_dropWhile (p := isAsciiSpace) (l := text)]
    rw [solid_append, solid_eq_nil fun byte hbyte => mem_takeWhile_imp hbyte, trimLeft,
      nil_append]
  rw [← hleft, trimmed]
  conv_rhs => rw [← rdropWhile_append_rtakeWhile (p := isAsciiSpace) (l := trimLeft text)]
  have hright : solid ((trimLeft text).rtakeWhile isAsciiSpace) = [] :=
    solid_eq_nil fun byte hbyte => mem_rtakeWhile_imp hbyte
  rw [solid_append, hright, trimRight, append_nil]

/-! ### Pieces and stretches -/

variable {stretches : List (ℕ × ℕ)}

section

variable {heights : PageHeights} {base : TextItemBase} {chars : List Char}

/-- What the loop makes of a stretch of bytes, from an item without provenance and spans. -/
def Filled (heights : PageHeights) (base : TextItemBase) (stretch : ℕ × ℕ) (piece : TextItemBase) :
    Prop :=
  ∃ target : TextItemBase, target.prov = [] ∧ target.spans = [] ∧
    piece = fillPiece heights base stretch target

/-- The new items go by their places. -/
theorem selfRef_newPieces (slot : ℕ) (stretches : List (ℕ × ℕ)) :
  (newPieces heights base slot stretches).map TextItemBase.selfRef =
    (List.range' slot stretches.length).map (slotRef kTexts)
  := by
  induction stretches generalizing slot with
  | nil => rfl
  | cons stretch stretches ih =>
    rw [length_cons, range'_succ, map_cons, ← ih]
    rfl

theorem length_newPieces (slot : ℕ) (stretches : List (ℕ × ℕ)) :
  (newPieces heights base slot stretches).length = stretches.length
  := by
  rw [newPieces, length_map, length_zipIdx]

theorem filled_newPieces (slot : ℕ) (stretches : List (ℕ × ℕ)) :
  List.Forall₂ (Filled heights base) stretches (newPieces heights base slot stretches)
  := by
  induction stretches generalizing slot with
  | nil => exact .nil
  | cons stretch stretches ih => exact .cons ⟨_, rfl, rfl, rfl⟩ (ih (slot + 1))

variable {pieces : List TextItemBase}

/-- A value that each piece has by its stretch. -/
theorem map_eq_of_filled {α : Type} {f : TextItemBase → α} {g : ℕ × ℕ → α}
    (h : List.Forall₂ (Filled heights base) stretches pieces)
    (hvalue : ∀ stretch ∈ stretches, ∀ piece, Filled heights base stretch piece →
      f piece = g stretch) :
  pieces.map f = stretches.map g
  := by
  induction h with
  | nil => rfl
  | cons hpiece _ ih =>
    obtain ⟨hfirst, hothers⟩ := forall_mem_cons.mp hvalue
    rw [map_cons, map_cons, hfirst _ hpiece, ih hothers]

theorem Filled.solid {stretch : ℕ × ℕ} {piece : TextItemBase} (h : Filled heights base stretch piece) :
  solid piece.text = solid (slice base.text stretch)
  := by
  obtain ⟨target, -, -, rfl⟩ := h
  exact solid_trimmed _

/-- The pieces have all of the text that is not white space. -/
theorem flatMap_solid {bounds : List ℕ} (hsorted : bounds.Pairwise (· ≤ ·))
    (hfirst : bounds.head? = some 0) (hlast : bounds.getLast? = some base.text.length)
    (h : List.Forall₂ (Filled heights base) (between bounds) pieces) :
  pieces.flatMap (fun piece => solid piece.text) = solid base.text
  := by
  have hmap := map_eq_of_filled h fun stretch _ piece hpiece => hpiece.solid
  have htext : ((between bounds).map (slice base.text)).flatten = base.text := by
    rw [flatten_slices _ hsorted hfirst hlast]
    simp [slice]
  rw [flatMap_def, hmap]
  conv_rhs => rw [← htext]
  generalize between bounds = stretches
  induction stretches with
  | nil => rfl
  | cons stretch stretches ih =>
    rw [map_cons, flatten_cons, map_cons, flatten_cons, solid_append, ih]

/-- The box that a piece takes of a provenance entry. -/
theorem Filled.bbox {stretch : ℕ × ℕ} {piece : TextItemBase} (h : Filled heights base stretch piece)
    {number : ℕ} {entry : ProvenanceItem} {box : BoundingBox}
    (hentry : base.prov[number]? = some entry) (hbox : entry.bbox = some box) :
  piece.prov[number]?.bind (fun strip => strip.bbox) =
    some (stripOf box ((heights entry.pageNo).getD 0)
      (codepoints (base.text.take stretch.1) / (max (codepoints base.text) 1 : ℕ))
      (codepoints (base.text.take stretch.2) / (max (codepoints base.text) 1 : ℕ)))
  := by
  obtain ⟨target, hprov, -, rfl⟩ := h
  simp only [fillPiece, hprov, nil_append, getElem?_map, hentry, Option.map_some,
    Option.bind_some, stripEntry, hbox]

/-- The pieces of the stretches between points are pieces of the text. -/
theorem pieceOf_filled (htext : base.text = encode chars)
    (hstretches : ∀ stretch ∈ stretches, stretch.1 ≤ stretch.2 ∧ stretch.2 ≤ chars.length)
    (h : List.Forall₂ (Filled heights base)
      (stretches.map (Prod.map (bytesTo chars) (bytesTo chars))) pieces) :
  List.Forall₂ (fun stretch piece => ∃ lead middle trail,
    PieceOf chars base stretch lead middle trail piece) stretches pieces
  := by
  have hboth := (forall₂_and_left _ _).mpr ⟨hstretches, forall₂_map_left_iff.mp h⟩
  refine hboth.imp ?_
  rintro ⟨first, second⟩ piece ⟨⟨hle, hlength⟩, target, -, hspans, rfl⟩
  exact pieceOf_fillPiece htext hspans hle hlength

/-- The boxes of the pieces, by the points between which they were cut. -/
theorem boxes_filled (htext : base.text = encode chars) (hnonempty : 0 < chars.length)
    (hstretches : ∀ stretch ∈ stretches, stretch.1 ≤ stretch.2 ∧ stretch.2 ≤ chars.length)
    (h : List.Forall₂ (Filled heights base)
      (stretches.map (Prod.map (bytesTo chars) (bytesTo chars))) pieces) {number : ℕ}
    {entry : ProvenanceItem} {box : BoundingBox} (hentry : base.prov[number]? = some entry)
    (hbox : entry.bbox = some box) :
  pieces.map (fun piece => piece.prov[number]?.bind fun strip => strip.bbox) =
    (stretches.map fun stretch => stripOf box ((heights entry.pageNo).getD 0)
      (stretch.1 / chars.length) (stretch.2 / chars.length)).map some
  := by
  rw [map_eq_of_filled h fun stretch _ piece hpiece => hpiece.bbox hentry hbox, map_map,
    map_map]
  apply map_congr_left
  intro stretch hstretch
  obtain ⟨hle, hlength⟩ := hstretches stretch hstretch
  have htotal : max (codepoints base.text) 1 = chars.length := by
    rw [htext, codepoints_encode]
    omega
  rw [Function.comp_apply, Function.comp_apply, htotal, htext]
  dsimp only [Prod.map_fst, Prod.map_snd]
  rw [codepoints_take, codepoints_take, Nat.min_eq_left hlength,
    Nat.min_eq_left (hle.trans hlength)]

end

/-! ### Points -/

section

variable {chars : List Char} {offsets : List ℕ}

theorem codepoints_mono (text : List UInt8) {first second : ℕ} (h : first ≤ second) :
  codepoints (text.take first) ≤ codepoints (text.take second)
  := by
  have hprefix : text.take first <+: text.take second := by
    rw [← Nat.min_eq_left h, ← take_take]
    exact take_prefix _ _
  exact hprefix.sublist.countP_le

/-- The cuts of a text of characters are between characters. -/
theorem exists_points (hoffsets : ∀ offset ∈ offsets, ∃ points, offset = bytesTo chars points) :
  ∃ points : List ℕ,
    0 :: cutsOf (encode chars).length offsets ++ [(encode chars).length] =
      points.map (bytesTo chars) ∧
    points.Pairwise (· ≤ ·) ∧ points.head? = some 0 ∧ points.getLast? = some chars.length ∧
    ∀ point ∈ points, point ≤ chars.length
  := by
  obtain ⟨hsorted, hinside, hgiven⟩ := cutsAt_cutsOf (encode chars).length offsets
  have hpoint : ∀ cut ∈ cutsOf (encode chars).length offsets,
      bytesTo chars (codepoints ((encode chars).take cut)) = cut ∧
        codepoints ((encode chars).take cut) ≤ chars.length := by
    intro cut hcut
    obtain ⟨points, rfl⟩ := hoffsets cut (hgiven cut hcut)
    rw [codepoints_take]
    refine ⟨?_, Nat.min_le_right _ _⟩
    rw [bytesTo, bytesTo, ← take_eq_take_min]
  generalize cutsOf (encode chars).length offsets = cuts at hsorted hpoint
  have hle : ∀ point ∈ cuts.map fun cut => codepoints ((encode chars).take cut),
      point ≤ chars.length := by
    intro point hmem
    obtain ⟨cut, hcut, rfl⟩ := mem_map.mp hmem
    exact (hpoint cut hcut).2
  refine ⟨0 :: cuts.map (fun cut => codepoints ((encode chars).take cut)) ++ [chars.length],
    ?_, ?_, rfl, ?_, ?_⟩
  · rw [map_append, map_cons, map_singleton, bytesTo_zero, bytesTo_length,
      map_map]
    congr 2
    exact (map_id _).symm.trans (map_congr_left fun cut hcut => (hpoint cut hcut).1.symm)
  · rw [cons_append, pairwise_cons]
    refine ⟨fun _ _ => Nat.zero_le _, ?_⟩
    rw [pairwise_append]
    refine ⟨?_, pairwise_singleton _ _, ?_⟩
    · exact pairwise_map.mpr (hsorted.imp fun hlt => codepoints_mono _ hlt.le)
    · intro point hmem last hlast
      rw [mem_singleton.mp hlast]
      exact hle point hmem
  · rw [getLast?_append]
    rfl
  · rw [cons_append]
    refine forall_mem_cons.mpr ⟨Nat.zero_le _, ?_⟩
    exact forall_mem_append.mpr ⟨hle, forall_mem_singleton.mpr le_rfl⟩

end

/-! ### What a split keeps -/

/-- What a split of a text at some points keeps of an item: its text but the white space between the
pieces, its spans, its boxes, and its place in the document. -/
structure Keeps (document after : Document) (index : ℕ) (base : TextItemBase) (chars : List Char)
    (points : List ℕ) (first : TextItemBase) (others : List TextItemBase) (refs : List String) :
    Prop where
  /-- All of the text that is not white space is there, in its order. -/
  text : (first :: others).flatMap (fun piece => solid piece.text) = solid base.text
  /-- Each piece is the trimmed text between two points, with the spans that start there, on those
  of their characters that lie in the piece. -/
  pieces : List.Forall₂ (fun stretch piece => ∃ lead middle trail,
    PieceOf chars base stretch lead middle trail piece) (between points) (first :: others)
  /-- A span that starts inside the text starts in one stretch only. -/
  once : ∀ span ∈ base.spans, spanStart span < chars.length →
    ∃! i : ℕ, ∃ stretch, (between points)[i]? = some stretch ∧ Within (spanStart span) stretch
  /-- The strips of a box that can be cut tile it, in the order of the pieces. -/
  strips : ∀ (number : ℕ) (entry : ProvenanceItem) (box : BoundingBox),
    base.prov[number]? = some entry → entry.bbox = some box →
    Measured document.pageHeights entry.pageNo box →
    let height := (document.pageHeights entry.pageNo).getD 0
    let flipped := topDownBox box height
    ∃ strips : List BoundingBox,
      (first :: others).map (fun piece => piece.prov[number]?.bind fun strip => strip.bbox) =
        strips.map some ∧
      Tiles flipped.left flipped.right flipped.top (strips.map (topDownBox · height)) flipped.bottom
  /-- The other fields of the item stay. -/
  first_kept : { first with
    text := base.text, orig := base.orig, prov := base.prov, spans := base.spans } = base
  /-- The further pieces are new items, beside the item. -/
  others_new : ∀ piece ∈ others, piece.parent = base.parent ∧ piece.children = [] ∧
    piece.contentLayer = base.contentLayer ∧ piece.label = base.label ∧
    piece.source = base.source
  /-- The new items go by their places in the arena. -/
  refs_eq : refs = (List.range' document.texts.length others.length).map (slotRef kTexts) ∧
    others.map TextItemBase.selfRef = refs
  /-- The references to the new items stand right behind the one to the item, in the one list that
  had it, and nothing else changes. -/
  placed : ∀ holder, document.OnlyIn (slotRef kTexts index) holder →
    holder ∈ document.searched base.parent.ref →
    ∃ before behind, document.children holder = before ++ ⟨slotRef kTexts index⟩ :: behind ∧
      after = (document.withPieces index first others).modifyChildren
        (fun _ => before ++ ⟨slotRef kTexts index⟩ :: (refs.map RefItem.mk ++ behind)) holder ∧
      after.children holder =
        before ++ ⟨slotRef kTexts index⟩ :: (refs.map RefItem.mk ++ behind) ∧
      ∀ other ≠ holder, after.children other = document.children other
  /-- Where no list is found that has the item, no list changes. -/
  unplaced : (∀ holder ∈ document.searched base.parent.ref,
      ∀ child ∈ document.children holder, child.ref ≠ slotRef kTexts index) →
    after = document.withPieces index first others

section

variable {document : Document} {index : ℕ} {base : TextItemBase} {offsets : List ℕ}

/-- An item without a cut stays as it is. -/
theorem splitTextItem_of_no_cut
    (hitem : document.texts[index]?.bind BaseTextItem.textBaseOf = some base)
    (hcuts : cutsOf base.text.length offsets = []) :
  splitTextItem document index offsets = (document, [])
  := by
  rw [splitTextItem, hitem]
  dsimp only
  rw [if_pos hcuts]

/-- A document with references behind the place that was found. -/
def Document.placeRefs (document : Document) (refs : List String) :
    Option (Holder × ℕ) → Document
  | none => document
  | some (holder, position) => document.modifyChildren (insertRefs · position refs) holder

/-- What a split makes of a document. -/
theorem splitTextItem_eq
    (hitem : document.texts[index]?.bind BaseTextItem.textBaseOf = some base)
    (hself : base.selfRef = slotRef kTexts index) (hcuts : cutsOf base.text.length offsets ≠ [])
    {stretch : ℕ × ℕ}
    (hstretches : between (0 :: cutsOf base.text.length offsets ++ [base.text.length]) =
      stretch :: stretches) :
  let first := fillPiece document.pageHeights base stretch { base with prov := [], spans := [] }
  let others := newPieces document.pageHeights base document.texts.length stretches
  let refs := others.map TextItemBase.selfRef
  splitTextItem document index offsets =
    ((document.withPieces index first others).placeRefs refs
      (document.childrenHolding (slotRef kTexts index) base.parent.ref), refs)
  := by
  intro first others refs
  have hothers : ∀ piece ∈ others, piece.children = [] := by
    intro piece hpiece
    obtain ⟨entry, -, rfl⟩ := mem_map.mp hpiece
    rfl
  have hfound := @childrenHolding_withPieces document index base first others hitem rfl hothers
    (slotRef kTexts index) base.parent.ref
  have href : (if base.selfRef = "" then slotRef kTexts index else base.selfRef) =
      slotRef kTexts index := by
    rw [hself, ite_self]
  rw [splitTextItem, hitem]
  dsimp only
  rw [if_neg hcuts, href, hstretches, foldl_splitPiece_first hitem]
  dsimp only
  rw [hfound]
  cases document.childrenHolding (slotRef kTexts index) base.parent.ref with
  | none => rfl
  | some found => rfl

theorem not_childrenHolding {ref parent : String}
    (h : ∀ holder ∈ document.searched parent, ∀ child ∈ document.children holder, child.ref ≠ ref) :
  document.childrenHolding ref parent = none
  := by
  rw [Document.childrenHolding, findSome?_eq_none_iff]
  intro holder hholder
  rw [Option.map_eq_none_iff, findIdx?_eq_none_iff]
  intro child hchild
  simpa using h holder hholder child hchild

/-- The new references stand behind the one that was found. -/
theorem placed_of_onlyIn {refs : List String} {first : TextItemBase} {others : List TextItemBase}
    (hitem : document.texts[index]?.bind BaseTextItem.textBaseOf = some base)
    (hfirst : first.children = base.children) (hothers : ∀ piece ∈ others, piece.children = [])
    {ref : String} {holder : Holder} (honly : document.OnlyIn ref holder)
    (hsearched : holder ∈ document.searched base.parent.ref) :
  let after := (document.withPieces index first others).placeRefs refs
    (document.childrenHolding ref base.parent.ref)
  ∃ before behind, document.children holder = before ++ ⟨ref⟩ :: behind ∧
    after = (document.withPieces index first others).modifyChildren
      (fun _ => before ++ ⟨ref⟩ :: (refs.map RefItem.mk ++ behind)) holder ∧
    after.children holder = before ++ ⟨ref⟩ :: (refs.map RefItem.mk ++ behind) ∧
    ∀ other ≠ holder, after.children other = document.children other
  := by
  obtain ⟨before, behind, hsplit, -, hfound⟩ := childrenHolding_of_onlyIn honly hsearched
  have hchildren := children_withPieces hitem hfirst hothers
  have hinsert : insertRefs (before ++ ⟨ref⟩ :: behind) before.length refs =
      before ++ ⟨ref⟩ :: (refs.map RefItem.mk ++ behind) := by
    have h := @insertRefs_append (before ++ [⟨ref⟩]) behind before.length (by simp) refs
    simpa using h
  rw [hfound, Document.placeRefs]
  refine ⟨before, behind, hsplit, ?_, ?_, ?_⟩
  · rw [modifyChildren_const, hchildren, hsplit, hinsert]
  · rw [children_modifyChildren_self, hchildren, hsplit, hinsert]
    rw [hchildren, hsplit]
    simp
  · intro other hother
    rw [children_modifyChildren_of_ne hother, hchildren]

end

/-- A split keeps the content of an item in its place. -/
theorem splitTextItem_keeps {document : Document} {index : ℕ} {base : TextItemBase}
    {chars : List Char} {offsets : List ℕ} (hpositional : document.Positional)
    (hitem : document.texts[index]?.bind BaseTextItem.textBaseOf = some base)
    (htext : base.text = encode chars)
    (hoffsets : ∀ offset ∈ offsets, ∃ points, offset = bytesTo chars points) :
  ((∀ offset ∈ offsets, ¬ (0 < offset ∧ offset < base.text.length)) →
    splitTextItem document index offsets = (document, [])) ∧
  ((∃ offset ∈ offsets, 0 < offset ∧ offset < base.text.length) →
    ∃ points first others,
      0 :: cutsOf base.text.length offsets ++ [base.text.length] = points.map (bytesTo chars) ∧
      Keeps document (splitTextItem document index offsets).1 index base chars points first others
        (splitTextItem document index offsets).2)
  := by
  constructor
  · intro hnone
    exact splitTextItem_of_no_cut hitem (cutsOf_eq_nil_iff.mpr hnone)
  · rintro ⟨offset, hoffset, hinside⟩
    have hcuts : cutsOf base.text.length offsets ≠ [] := by
      intro hnil
      exact cutsOf_eq_nil_iff.mp hnil offset hoffset hinside
    have hself : base.selfRef = slotRef kTexts index := by
      obtain ⟨item, hget, hbase⟩ := Option.bind_eq_some_iff.mp hitem
      cases item with
      | notSet => cases hbase
      | code item => cases hbase
      | based kind base rest =>
        obtain rfl := Option.some.inj hbase
        exact hpositional index _ hget _ rfl
    obtain ⟨points, hpoints, hsorted, hfirst, hlast, hle⟩ := exists_points hoffsets
    rw [← htext] at hpoints
    have hnonempty : 0 < chars.length := by
      apply List.length_pos_of_ne_nil
      rintro rfl
      rw [htext] at hinside
      exact absurd hinside.2 (Nat.not_lt_zero _)
    have hbetween : between (0 :: cutsOf base.text.length offsets ++ [base.text.length]) =
        (between points).map (Prod.map (bytesTo chars) (bytesTo chars)) := by
      rw [hpoints, between_map]
    have hstretches : ∀ stretch ∈ between points,
        stretch.1 ≤ stretch.2 ∧ stretch.2 ≤ chars.length := fun stretch hmem =>
      ⟨le_of_mem_between hsorted hmem, hle _ (mem_of_mem_between hmem).2⟩
    obtain ⟨start, rest, hcons⟩ := List.exists_cons_of_ne_nil (show between points ≠ [] by
      intro hnil
      have hlength := congrArg List.length hbetween
      rw [hnil, length_between] at hlength
      simp at hlength)
    let bytes := Prod.map (bytesTo chars) (bytesTo chars)
    let heights := document.pageHeights
    let first := fillPiece heights base (bytes start) { base with prov := [], spans := [] }
    let others := newPieces heights base document.texts.length (rest.map bytes)
    have heq := splitTextItem_eq hitem hself hcuts
      (hbetween.trans (by rw [hcons, List.map_cons]))
    have hfilled : List.Forall₂ (Filled heights base) ((between points).map bytes)
        (first :: others) := by
      rw [hcons, List.map_cons]
      exact .cons ⟨_, rfl, rfl, rfl⟩ (filled_newPieces _ _)
    have hothers : ∀ piece ∈ others, piece.parent = base.parent ∧ piece.children = [] ∧
        piece.contentLayer = base.contentLayer ∧ piece.label = base.label ∧
        piece.source = base.source := by
      intro piece hpiece
      obtain ⟨entry, -, rfl⟩ := List.mem_map.mp hpiece
      exact ⟨rfl, rfl, rfl, rfl, rfl⟩
    refine ⟨points, first, others, hpoints, ?_⟩
    rw [heq]
    constructor
    case text =>
      have hbounds : (points.map (bytesTo chars)).Pairwise (· ≤ ·) :=
        List.pairwise_map.mpr (hsorted.imp bytesTo_mono)
      rw [← between_map] at hfilled
      apply flatMap_solid hbounds _ _ hfilled
      · rw [List.head?_map, hfirst]
        rfl
      · rw [List.getLast?_map, hlast, htext, Option.map_some, bytesTo_length]
    case pieces => exact pieceOf_filled htext hstretches hfilled
    case once =>
      intro span _ hspan
      exact existsUnique_within hsorted hfirst hlast (Nat.zero_le _) hspan
    case strips =>
      intro number entry box hentry hbox hmeasured
      have htiles := tiles_strips (fun _ => documentPageHeights_pos) hmeasured hsorted hnonempty
        hfirst hlast
      refine ⟨_, boxes_filled htext hnonempty hstretches hfilled hentry hbox, ?_⟩
      rwa [List.map_map]
    case first_kept => rfl
    case others_new => exact hothers
    case refs_eq =>
      refine ⟨?_, rfl⟩
      rw [selfRef_newPieces, length_newPieces]
    case placed =>
      intro holder honly hsearched
      exact placed_of_onlyIn hitem (show first.children = base.children from rfl)
        (fun piece hpiece => (hothers piece hpiece).2.1) honly hsearched
    case unplaced =>
      intro hnone
      rw [not_childrenHolding hnone]
      rfl

/-- Two words in a paragraph of the body, the second in a span. -/
def twoWords : TextItemBase :=
  { selfRef := "#/texts/0"
    parent := ⟨"#/body"⟩
    prov := [{ bbox := some { t := 0, r := 1, b := 3 } }]
    text := [0x61, 0x20, 0x62]
    spans := [{ range := ⟨2, 3⟩ }] }

def twoWordsDocument : Document :=
  { texts := [.based .text twoWords .done]
    body := { selfRef := "#/body", children := [⟨"#/texts/0"⟩] } }

theorem splitTextItem_keeps_twoWords :
  ∃ points first others,
    0 :: cutsOf twoWords.text.length [2] ++ [twoWords.text.length] =
      points.map (bytesTo ['a', ' ', 'b']) ∧
    Keeps twoWordsDocument (splitTextItem twoWordsDocument 0 [2]).1 0 twoWords ['a', ' ', 'b'] points
      first others (splitTextItem twoWordsDocument 0 [2]).2
  := by
  have hpositional : twoWordsDocument.Positional := by
    rintro (_ | index) item hitem ref href
    · obtain rfl := Option.some.inj hitem
      obtain rfl := Option.some.inj href
      decide
    · cases hitem
  have hoffsets : ∀ offset ∈ [2], ∃ points, offset = bytesTo ['a', ' ', 'b'] points := by
    intro offset hoffset
    obtain rfl := List.mem_singleton.mp hoffset
    exact ⟨2, by decide⟩
  exact (splitTextItem_keeps hpositional rfl (by decide) hoffsets).2 ⟨2, by simp, by decide⟩

/-! ### What a split leaves out -/

/-- A box that is measured from the bottom of no page. -/
def strayBox : BoundingBox :=
  { t := 2, r := 1, coordOrigin := .bottomLeft }

/-- An item with a span behind its text, in a region of a form. -/
def strayBase : TextItemBase :=
  { selfRef := "#/texts/0"
    parent := ⟨"#/field_regions/0"⟩
    prov := [{ bbox := some strayBox }]
    text := [0x61, 0x20, 0x62]
    spans := [{ range := ⟨3, 4⟩ }] }

def strayDocument : Document :=
  { texts := [.based .text strayBase .done]
    fieldRegions := [{ selfRef := "#/field_regions/0", children := [⟨"#/texts/0"⟩] }] }

/-- No piece has the span, each has the whole box, and the region has no further piece. -/
theorem not_keeps_strayDocument :
  let (after, refs) := splitTextItem strayDocument 0 [2]
  let pieces := after.texts.filterMap BaseTextItem.textBaseOf
  let flipped := topDownBox strayBox 0
  strayDocument.OnlyIn "#/texts/0" (.fieldRegion 0) ∧ refs = ["#/texts/1"] ∧
    (∀ piece ∈ pieces, piece.spans = []) ∧
    pieces.map (fun piece => piece.prov[0]?.bind fun strip => strip.bbox) =
      [some strayBox, some strayBox] ∧
    ¬ Tiles flipped.left flipped.right flipped.top [flipped, flipped] flipped.bottom ∧
    after.children (.fieldRegion 0) = [⟨"#/texts/0"⟩]
  := by
  refine ⟨?_, by decide +kernel, by decide +kernel, by decide +kernel, ?_, by decide +kernel⟩
  · have hregion : ∀ index, index ≠ 0 → strayDocument.children (.fieldRegion index) = [] := by
      intro index hindex
      obtain ⟨index, rfl⟩ := Nat.exists_eq_succ_of_ne_zero hindex
      rfl
    have htext : ∀ index, strayDocument.children (.text index) = [] := by
      intro index
      cases index <;> rfl
    rintro (index | index | index | index | index | index | index | index | _ | _)
    case fieldRegion =>
      by_cases hindex : index = 0
      · subst hindex
        exact iff_of_true ⟨_, List.mem_cons_self, rfl⟩ rfl
      · rw [hregion index hindex]
        exact iff_of_false (by simp) (by simpa using hindex)
    case text =>
      rw [htext index]
      exact iff_of_false (by simp) fun h => by cases h
    all_goals
      exact iff_of_false (by simp [Document.children, childrenAt, strayDocument]) fun h => by cases h
  · rintro ⟨-, -, -, -, -, htop, -⟩
    have hne : (topDownBox strayBox 0).top ≠ (topDownBox strayBox 0).bottom := by decide +kernel
    exact hne htop

end GRParse.Splitting
