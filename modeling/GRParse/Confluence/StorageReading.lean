import GRParse.Confluence.StorageMarkup

/-!
# Reading a body

Each piece of a well-formed body is read as what it is, and leaves what is behind it.  A start tag
opens its element if the element is neither void nor too deep, and an end tag closes the innermost
element if that is its own.
-/

namespace GRParse.Confluence

open List

variable {s : State} {outer : List Node} {inner : Node}

/-! ### Steps -/

/-- The loop goes on behind a construct that is read. -/
theorem parseFrom_step {s' : State} {input rest : List UInt8} (hne : input ≠ [])
    (h : readConstruct s input = some (s', rest)) :
  parseFrom s input = parseFrom s' rest
  := by
  rw [parseFrom, dif_neg hne]
  split
  case h_1 hnone => rw [h] at hnone; cases hnone
  case h_2 s'' rest' hsome =>
    obtain ⟨rfl, rfl⟩ := Prod.mk.inj (Option.some.inj (h.symm.trans hsome))
    rfl

/-- What is behind a text begins with a tag. -/
def EndsText (rest : List UInt8) : Prop :=
  ∀ letter ∈ rest.head?, letter = 0x3c

theorem endsText_cons (rest : List UInt8) :
  EndsText (0x3c :: rest)
  := by
  rintro _ ⟨⟩
  rfl

theorem readConstruct_text {raw rest : List UInt8} (hne : raw ≠ []) (hraw : 0x3c ∉ raw)
    (hrest : EndsText rest) :
  readConstruct s (raw ++ rest) =
    (s.appendText (decodeEntities raw)).map fun s => (s, rest)
  := by
  have htaken : ∀ letter ∈ raw, decide (letter ≠ 0x3c) := by
    intro letter hletter
    apply decide_eq_true
    rintro rfl
    exact hraw hletter
  have hstop : StopsAt (fun letter => decide (letter ≠ 0x3c)) rest := by
    intro letter hletter
    rw [hrest letter hletter]
    decide
  have hhead : (raw ++ rest).head? ≠ some 0x3c := by
    obtain ⟨letter, more, rfl⟩ := exists_cons_of_ne_nil hne
    intro heq
    obtain rfl := Option.some.inj heq
    exact hraw mem_cons_self
  obtain ⟨htake, hdrop⟩ := scan_append htaken hstop
  rw [readConstruct, if_pos hhead, readTextRun, htake, hdrop]

theorem readConstruct_cdata {raw : List UInt8} (hraw : ¬ kCdataEnd <:+: raw) (rest : List UInt8) :
  readConstruct s (kCdataStart ++ (raw ++ kCdataEnd) ++ rest) =
    (s.appendText raw).map fun s => (s, rest)
  := by
  have hsplit : splitAtToken kCdataEnd ((kCdataStart ++ (raw ++ kCdataEnd) ++ rest).drop 9) =
      some (raw, rest) := by
    rw [append_assoc, append_assoc]
    exact splitAtToken_append (show (0x3e : UInt8) ∉ [0x5d, 0x5d] by decide) hraw rest
  have hread : readConstruct s (kCdataStart ++ (raw ++ kCdataEnd) ++ rest) =
      readCdata s (kCdataStart ++ (raw ++ kCdataEnd) ++ rest) := rfl
  rw [hread, readCdata, hsplit]

theorem readConstruct_comment {raw : List UInt8} (hraw : ¬ kCommentEnd <:+: raw)
    (rest : List UInt8) :
  readConstruct s (kCommentStart ++ (raw ++ kCommentEnd) ++ rest) = some (s, rest)
  := by
  have hsplit : splitAtToken kCommentEnd
      ((kCommentStart ++ (raw ++ kCommentEnd) ++ rest).drop 4) = some (raw, rest) := by
    rw [append_assoc, append_assoc]
    exact splitAtToken_append (show (0x3e : UInt8) ∉ [0x2d, 0x2d] by decide) hraw rest
  have hread : readConstruct s (kCommentStart ++ (raw ++ kCommentEnd) ++ rest) =
      some (skipComment s (kCommentStart ++ (raw ++ kCommentEnd) ++ rest)) := rfl
  rw [hread, skipComment, hsplit]

theorem readConstruct_instruction {raw : List UInt8} (hraw : ¬ kInstructionEnd <:+: raw)
    (rest : List UInt8) :
  readConstruct s (kInstructionStart ++ (raw ++ kInstructionEnd) ++ rest) = some (s, rest)
  := by
  have hsplit : splitAtToken kInstructionEnd
      ((kInstructionStart ++ (raw ++ kInstructionEnd) ++ rest).drop 2) = some (raw, rest) := by
    rw [append_assoc, append_assoc]
    exact splitAtToken_append (show (0x3e : UInt8) ∉ [0x3f] by decide) hraw rest
  have hread : readConstruct s (kInstructionStart ++ (raw ++ kInstructionEnd) ++ rest) =
      some (s, skipInstruction (kInstructionStart ++ (raw ++ kInstructionEnd) ++ rest)) := rfl
  rw [hread, skipInstruction, hsplit]

/-! ### Tags -/

/-- What begins with neither a declaration, an instruction nor an end tag is an element. -/
theorem readConstruct_element {letter : UInt8} (hbang : letter ≠ 0x21) (hquestion : letter ≠ 0x3f)
    (hslash : letter ≠ 0x2f) (rest : List UInt8) :
  readConstruct s (0x3c :: letter :: rest) = readElement s (0x3c :: letter :: rest)
  := by
  have hstarts : ∀ (second : UInt8) (token : List UInt8), letter ≠ second →
      ¬ startsWith (0x3c :: second :: token) (0x3c :: letter :: rest) := by
    intro second token hne
    simp [startsWith, isPrefixOf, hne.symm]
  have hcomment : ¬ startsWith kCommentStart (0x3c :: letter :: rest) := hstarts _ _ hbang
  have hcdata : ¬ startsWith kCdataStart (0x3c :: letter :: rest) := hstarts _ _ hbang
  have hinstruction : ¬ startsWith kInstructionStart (0x3c :: letter :: rest) :=
    hstarts _ _ hquestion
  have hdeclaration : ¬ startsWith kDeclarationStart (0x3c :: letter :: rest) := hstarts _ _ hbang
  have hend : ¬ startsWith kEndTagStart (0x3c :: letter :: rest) := hstarts _ _ hslash
  rw [readConstruct, if_neg (by simp), if_neg hcomment, if_neg hcdata, if_neg hinstruction,
    if_neg hdeclaration, if_neg hend]

/-- A tag is read as an element by its name. -/
theorem readConstruct_tag {tag : Tag} (h : tag.Valid) {last : List UInt8} (hlast : last ≠ [])
    (hends : ∀ letter ∈ last.head?, isSeparator letter) (tagEnd : TagEnd)
    (hread : readAttributes (tag.attributes.map RawAttribute.read) (tag.space ++ last) = tagEnd) :
  readConstruct s (0x3c :: (tag.write ++ last)) =
    (pushElement
      (warnOfTag s (splitName tag.name).2 tagEnd
        (!(tagEnd.selfClosing || !tagEnd.terminated || tag.isVoid) &&
          kMaxDepth < s.openStack.length))
      (.element (splitName tag.name).1 (splitName tag.name).2 tagEnd.attributes [])
      ((tagEnd.selfClosing || !tagEnd.terminated || tag.isVoid) ||
        (!(tagEnd.selfClosing || !tagEnd.terminated || tag.isVoid) &&
          kMaxDepth < s.openStack.length))).map fun s => (s, tagEnd.rest)
  := by
  obtain ⟨letter, more, rfl⟩ := exists_cons_of_ne_nil hlast
  have hletter := hends letter rfl
  obtain ⟨first, name, hfirst, hsep⟩ := exists_head_of_splitName h.name
    (fun heq => h.named (by rw [heq]))
  have hwrite : tag.write ++ letter :: more =
      tag.name ++ (tag.attributes.flatMap RawAttribute.write ++ (tag.space ++ letter :: more)) := by
    simp [Tag.write]
  have hname : readName (tag.write ++ letter :: more) = (splitName tag.name,
      tag.attributes.flatMap RawAttribute.write ++ (tag.space ++ letter :: more)) := by
    rw [hwrite]
    exact readName_append h.name (separator_of_attributes h.attributes h.space hletter)
  have helement : readConstruct s (0x3c :: (tag.write ++ letter :: more)) =
      readElement s (0x3c :: (tag.write ++ letter :: more)) := by
    have hopens := h.opens
    rw [hfirst, head?_cons] at hopens
    rw [hwrite, hfirst, cons_append]
    apply readConstruct_element
    · exact fun heq => hopens.1 (by rw [heq])
    · exact fun heq => hopens.2 (by rw [heq])
    · exact (ne_of_not_isSeparator hsep).2.2.1
  have hattributes := readAttributes_write h.attributes [] (tag.space ++ letter :: more)
  rw [nil_append, hread] at hattributes
  rw [helement, readElement, drop_succ_cons, drop_zero, hname]
  dsimp only
  rw [if_neg h.named, hattributes]
  rfl

/-- What is done to a start tag that is whole. -/
theorem readConstruct_startTag {tag : Tag} (htag : tag.Valid) (rest : List UInt8) :
  ∃ tagEnd : TagEnd, tagEnd.terminated ∧
    ∀ flat closed, flat = (!tag.isVoid && decide (kMaxDepth < s.openStack.length)) →
      closed = (tag.isVoid || flat) →
      readConstruct s (0x3c :: (tag.write ++ 0x3e :: rest)) =
        (pushElement (warnOfTag s (splitName tag.name).2 tagEnd flat) (tag.read []) closed).map
          fun s => (s, rest)
  := by
  use ⟨tag.attributes.map RawAttribute.read, false, true, rest⟩, rfl
  rintro _ _ rfl rfl
  exact readConstruct_tag htag (cons_ne_nil 0x3e rest) (by rintro _ ⟨⟩; decide) _
    (readAttributes_end htag.space _ rest)

variable {name space : List UInt8}

/-- What is done to an end tag. -/
theorem readConstruct_endTag (hname : ∀ letter ∈ name, ¬ isSeparator letter)
    (hspace : ∀ letter ∈ space, isSpace letter) (rest : List UInt8) {depth : ℕ}
    (hdepth : openDepth s (splitName name).1 (splitName name).2 s.openStack.length =
      some depth) :
  readConstruct s (kEndTagStart ++ (name ++ (space ++ [0x3e])) ++ rest) = some
    (if depth = 1 then (s.warn (.closesNothing (splitName name).1 (splitName name).2), rest)
    else
      let s := if depth ≠ s.openStack.length then
        s.warn (.closedElements (splitName name).1 (splitName name).2
          (s.openStack.length - depth)) else s
      ({ s with openStack := s.openStack.take (depth - 1) }, rest))
  := by
  have hinput : (kEndTagStart ++ (name ++ (space ++ [0x3e])) ++ rest).drop 2 =
      name ++ (space ++ 0x3e :: rest) := by
    simp [kEndTagStart]
  have hread : readName (name ++ (space ++ 0x3e :: rest)) =
      (splitName name, space ++ 0x3e :: rest) :=
    readName_append hname (separator_of_spaces hspace (by decide))
  have hbehind : ((space ++ 0x3e :: rest).dropWhile fun letter => decide (letter ≠ 0x3e)).drop 1 =
      rest := by
    have hscan : ∀ letter ∈ space, decide (letter ≠ 0x3e) := by
      intro letter hletter
      apply decide_eq_true
      rintro rfl
      exact isSpace_markup.2.2.1 (hspace _ hletter)
    have hstop : StopsAt (fun letter => decide (letter ≠ 0x3e)) (0x3e :: rest) := by simp [StopsAt]
    rw [(scan_append hscan hstop).2]
    rfl
  have hconstruct : readConstruct s (kEndTagStart ++ (name ++ (space ++ [0x3e])) ++ rest) =
      closeElement s (kEndTagStart ++ (name ++ (space ++ [0x3e])) ++ rest) := rfl
  rw [hconstruct, closeElement, hinput, hread]
  dsimp only
  rw [hbehind, hdepth]
  rfl

/-! ### Pieces -/

/-- Whether a warning is about an end tag that closes nothing, or that closes other elements. -/
def Warning.ofEndTag : Warning → Bool
  | closesNothing _ _ | closedElements _ _ _ => true
  | _ => false

/-- The warnings about a tag that is whole. -/
theorem warnings_warnOfTag (s : State) (name : List UInt8) {tagEnd : TagEnd}
    (h : tagEnd.terminated) (flat : Bool) :
  ∃ more, (warnOfTag s name tagEnd flat).warnings = s.warnings ++ more ∧
    (flat = false → more = []) ∧ ∀ warning ∈ more, ¬ warning.ofEndTag
  := by
  simp only [warnOfTag, h, if_true]
  split
  case isTrue hflat =>
    refine ⟨[.flattened], rfl, ?_, by simp [Warning.ofEndTag]⟩
    rintro rfl
    exact absurd hflat Bool.false_ne_true
  case isFalse => exact ⟨[], (append_nil _).symm, fun _ => rfl, by simp⟩

namespace Opens

/-- A piece without an end tag is read as its nodes. -/
theorem readLeaf (h : Opens outer inner s) {item : Item} {rest : List UInt8} (hvalid : item.Valid)
    (hleaf : ∀ tag content space, item ≠ .element tag content space)
    (hrest : item.isText → EndsText rest) :
  ∃ s', parseFrom s (item.write ++ rest) = parseFrom s' rest ∧
    Opens outer (item.nodes.foldl Node.push inner) s' ∧ s'.warnings = s.warnings
  := by
  cases item with
  | text raw =>
    simp only [Item.Valid] at hvalid
    have hread := readConstruct_text (s := s) hvalid.1 hvalid.2 (hrest rfl)
    rw [h.appendText] at hread
    exact ⟨_, parseFrom_step (by simp [hvalid.1, Item.write]) hread, ⟨rfl, h.openStack⟩, rfl⟩
  | cdata raw =>
    simp only [Item.Valid] at hvalid
    have hread := readConstruct_cdata (s := s) hvalid rest
    rw [h.appendText] at hread
    exact ⟨_, parseFrom_step (by simp [Item.write, kCdataStart]) hread, ⟨rfl, h.openStack⟩, rfl⟩
  | comment raw =>
    simp only [Item.Valid] at hvalid
    exact ⟨s, parseFrom_step (by simp [Item.write, kCommentStart])
      (readConstruct_comment hvalid rest), h, rfl⟩
  | instruction raw =>
    simp only [Item.Valid] at hvalid
    exact ⟨s, parseFrom_step (by simp [Item.write, kInstructionStart])
      (readConstruct_instruction hvalid rest), h, rfl⟩
  | empty tag =>
    simp only [Item.Valid] at hvalid
    set tagEnd : TagEnd :=
      ⟨tag.attributes.map RawAttribute.read, true, true, rest⟩
    have hread := readConstruct_tag (s := s) hvalid (cons_ne_nil 0x2f (0x3e :: rest))
      (by rintro _ ⟨⟩; decide) tagEnd (readAttributes_empty hvalid.space _ rest)
    obtain ⟨more, hwarnings, hnone, _⟩ :=
      warnings_warnOfTag s (splitName tag.name).2 (show tagEnd.terminated from rfl) false
    rw [hnone rfl, append_nil] at hwarnings
    have hopens := h.warnOfTag (splitName tag.name).2 tagEnd false
    have hself : tagEnd.selfClosing = true := rfl
    simp only [hself, Bool.true_or, Bool.not_true, Bool.false_and, Bool.or_false] at hread
    rw [hopens.pushElement_closed] at hread
    have hwrite : (Item.empty tag).write ++ rest = 0x3c :: (tag.write ++ 0x2f :: 0x3e :: rest) := by
      rw [Item.write, cons_append, append_assoc]
      rfl
    rw [hwrite]
    exact ⟨_, parseFrom_step (cons_ne_nil _ _) hread, ⟨rfl, hopens.openStack⟩, hwarnings⟩
  | element tag content space => exact absurd rfl (hleaf tag content space)

/-- The element of a start tag is opened. -/
theorem readStartTag (h : Opens outer inner s) {tag : Tag} (htag : tag.Valid) (hvoid : ¬ tag.isVoid)
    (hdepth : outer.length < kMaxDepth) (rest : List UInt8) :
  ∃ s', parseFrom s (0x3c :: (tag.write ++ 0x3e :: rest)) = parseFrom s' rest ∧
    Opens (outer ++ [inner]) (tag.read []) s' ∧ s'.warnings = s.warnings
  := by
  obtain ⟨tagEnd, hterminated, hread⟩ := readConstruct_startTag (s := s) htag rest
  have hflat : false = (!tag.isVoid && decide (kMaxDepth < s.openStack.length)) := by
    rw [h.length, decide_eq_false (by omega), Bool.and_false]
  have hclosed : false = (tag.isVoid || false) := by
    rw [Bool.or_false]
    exact (Bool.eq_false_of_not_eq_true hvoid).symm
  obtain ⟨more, hwarnings, hnone, _⟩ :=
    warnings_warnOfTag s (splitName tag.name).2 hterminated false
  rw [hnone rfl, append_nil] at hwarnings
  obtain ⟨s', hpush, hopens, hs'⟩ :=
    (h.warnOfTag (splitName tag.name).2 tagEnd false).pushElement_open (tag.read [])
  have hstep := hread false false hflat hclosed
  rw [hpush] at hstep
  refine ⟨s', parseFrom_step (cons_ne_nil _ _) hstep, hopens, ?_⟩
  rw [hs']
  exact hwarnings

/-- The element of a start tag is kept without being opened. -/
theorem readStartTag_closed (h : Opens outer inner s) {tag : Tag} (htag : tag.Valid)
    (hclosed : tag.isVoid ∨ kMaxDepth ≤ outer.length) (rest : List UInt8) :
  ∃ s' more, parseFrom s (0x3c :: (tag.write ++ 0x3e :: rest)) = parseFrom s' rest ∧
    Opens outer (inner.push (tag.read [])) s' ∧ s'.warnings = s.warnings ++ more ∧
    ∀ warning ∈ more, ¬ warning.ofEndTag
  := by
  obtain ⟨tagEnd, hterminated, hread⟩ := readConstruct_startTag (s := s) htag rest
  obtain ⟨flat, hflat⟩ : ∃ flat, flat = (!tag.isVoid && decide (kMaxDepth < s.openStack.length)) :=
    ⟨_, rfl⟩
  have hor : true = (tag.isVoid || flat) := by
    rw [hflat, h.length]
    rcases hclosed with hvoid | hdepth
    · rw [hvoid]
      rfl
    · rw [decide_eq_true (by omega)]
      cases tag.isVoid <;> rfl
  obtain ⟨more, hwarnings, _, hmore⟩ :=
    warnings_warnOfTag s (splitName tag.name).2 hterminated flat
  have hopens := h.warnOfTag (splitName tag.name).2 tagEnd flat
  have hstep := hread flat true hflat hor
  rw [hopens.pushElement_closed] at hstep
  exact ⟨_, more, parseFrom_step (cons_ne_nil _ _) hstep, ⟨rfl, hopens.openStack⟩, hwarnings,
    hmore⟩

/-- The end tag of the innermost element closes it. -/
theorem readEndTag {node : Node} (h : Opens (outer ++ [inner]) node s)
    (hnode : qualified node = splitName name) (hname : ∀ letter ∈ name, ¬ isSeparator letter)
    (hspace : ∀ letter ∈ space, isSpace letter) (rest : List UInt8) :
  ∃ s', parseFrom s (kEndTagStart ++ (name ++ (space ++ [0x3e])) ++ rest) = parseFrom s' rest ∧
    Opens outer (inner.push node) s' ∧ s'.warnings = s.warnings
  := by
  have hlength : s.openStack.length = outer.length + 2 := by
    rw [h.length, length_append]
    rfl
  have hdepth := h.openDepth_innermost (by simp)
  have hspaceName : node.nsPrefix = (splitName name).1 := congrArg Prod.fst hnode
  have hlocalName : node.name = (splitName name).2 := congrArg Prod.snd hnode
  rw [hspaceName, hlocalName] at hdepth
  have hstep := readConstruct_endTag hname hspace rest hdepth
  rw [if_neg (by omega)] at hstep
  simp only [ne_eq, not_true_eq_false, if_false] at hstep
  have hopens := h.take (show outer.length < (outer ++ [inner]).length by simp)
  rw [take_left, drop_left] at hopens
  refine ⟨_, parseFrom_step (by simp [kEndTagStart]) hstep, ?_, rfl⟩
  rw [hlength]
  exact hopens

/-- An end tag without a warning about it closes just the innermost element. -/
theorem readEndTag_length (h : Opens outer inner s)
    (hname : ∀ letter ∈ name, ¬ isSeparator letter) (hspace : ∀ letter ∈ space, isSpace letter)
    (rest : List UInt8) :
  ∃ s' outer' inner' more,
    parseFrom s (kEndTagStart ++ (name ++ (space ++ [0x3e])) ++ rest) = parseFrom s' rest ∧
    Opens outer' inner' s' ∧ s'.warnings = s.warnings ++ more ∧
    ((∀ warning ∈ more, ¬ warning.ofEndTag) → outer'.length < outer.length)
  := by
  obtain ⟨depth, hdepth, hpos, hle⟩ := h.openDepth (splitName name).1 (splitName name).2
    (by rw [h.length]; omega) h.length.le
  have hstep := readConstruct_endTag hname hspace rest hdepth
  have hinput : kEndTagStart ++ (name ++ (space ++ [0x3e])) ++ rest ≠ [] := by simp [kEndTagStart]
  by_cases hone : depth = 1
  · rw [if_pos hone] at hstep
    refine ⟨_, outer, inner, _, parseFrom_step hinput hstep, ⟨h.root, h.openStack⟩, rfl, ?_⟩
    intro hmore
    exact absurd rfl (hmore _ mem_cons_self)
  · rw [if_neg hone] at hstep
    rw [h.length] at hle
    have hopens := h.take (show depth - 2 < outer.length by omega)
    rw [show depth - 2 + 1 = depth - 1 by omega] at hopens
    by_cases hall : depth ≠ s.openStack.length
    · simp only [if_pos hall] at hstep
      refine ⟨_, _, _, _, parseFrom_step hinput hstep, ⟨hopens.root, hopens.openStack⟩, rfl, ?_⟩
      intro hmore
      exact absurd rfl (hmore _ mem_cons_self)
    · simp only [if_neg hall] at hstep
      refine ⟨_, _, _, [], parseFrom_step hinput hstep, hopens, (append_nil _).symm, ?_⟩
      intro _
      rw [length_take]
      omega

end Opens

/-! ### Bodies -/

/-- To push nodes one by one is to put them behind the children. -/
theorem foldl_push_element (nsPrefix name : List UInt8) (attributes : List Attribute)
    (children more : List Node) :
  more.foldl Node.push (.element nsPrefix name attributes children) =
    .element nsPrefix name attributes (children ++ more)
  := by
  induction more generalizing children with
  | nil => rw [foldl_nil, append_nil]
  | cons child more ih =>
    rw [foldl_cons, append_cons, ← ih]
    rfl

/-- What is behind a piece that is a text begins with a tag. -/
theorem endsText_writeAll {items : List Item} {rest : List UInt8}
    (h : ∀ next ∈ items.head?, ¬ next.isText) (hrest : EndsText rest) :
  EndsText (Item.writeAll items ++ rest)
  := by
  cases items with
  | nil => exact hrest
  | cons item items =>
    have hitem := h item rfl
    cases item
    case text => exact absurd rfl hitem
    all_goals exact endsText_cons _

namespace Opens

mutual

/-- A piece whose elements are not too deep is read as its nodes. -/
theorem readItem : ∀ (item : Item) {s : State} {outer : List Node} {inner : Node}
    {rest : List UInt8}, Opens outer inner s → item.Valid → item.NoVoidEnd →
    outer.length + item.closingDepth ≤ kMaxDepth → (item.isText → EndsText rest) →
    ∃ s', parseFrom s (item.write ++ rest) = parseFrom s' rest ∧
      Opens outer (item.nodes.foldl Node.push inner) s' ∧ s'.warnings = s.warnings
  | .element tag content space, s, outer, inner, rest, h, hvalid, hvoid, hdepth, _ => by
    simp only [Item.Valid, Item.NoVoidEnd, Item.closingDepth] at hvalid hvoid hdepth
    obtain ⟨htag, hcontent, hspace⟩ := hvalid
    obtain ⟨s₁, hstart, hopens₁, hwarnings₁⟩ := h.readStartTag htag hvoid.1 (by omega)
      (Item.writeAll content ++ (kEndTagStart ++ (tag.name ++ (space ++ [0x3e])) ++ rest))
    have hlength : (outer ++ [inner]).length + Item.closingDepths content ≤ kMaxDepth := by
      rw [List.length_append, List.length_singleton]
      omega
    have hends : EndsText (kEndTagStart ++ (tag.name ++ (space ++ [0x3e])) ++ rest) :=
      endsText_cons _
    obtain ⟨s₂, hread, hopens₂, hwarnings₂⟩ := readItems content hopens₁ hcontent hvoid.2 hlength
      hends
    rw [Tag.read, foldl_push_element, List.nil_append] at hopens₂
    obtain ⟨s₃, hend, hopens₃, hwarnings₃⟩ := hopens₂.readEndTag rfl htag.name hspace rest
    have hwrite : (Item.element tag content space).write ++ rest =
        0x3c :: (tag.write ++ 0x3e :: (Item.writeAll content ++
          (kEndTagStart ++ (tag.name ++ (space ++ [0x3e])) ++ rest))) := by
      simp [Item.write]
    refine ⟨s₃, ?_, hopens₃, hwarnings₃.trans (hwarnings₂.trans hwarnings₁)⟩
    rw [hwrite, hstart, hread, hend]
  | .text _, _, _, _, _, h, hvalid, _, _, hrest => h.readLeaf hvalid nofun hrest
  | .cdata _, _, _, _, _, h, hvalid, _, _, hrest => h.readLeaf hvalid nofun hrest
  | .comment _, _, _, _, _, h, hvalid, _, _, hrest => h.readLeaf hvalid nofun hrest
  | .instruction _, _, _, _, _, h, hvalid, _, _, hrest => h.readLeaf hvalid nofun hrest
  | .empty _, _, _, _, _, h, hvalid, _, _, hrest => h.readLeaf hvalid nofun hrest

/-- Pieces whose elements are not too deep are read as their nodes. -/
theorem readItems : ∀ (items : List Item) {s : State} {outer : List Node} {inner : Node}
    {rest : List UInt8}, Opens outer inner s → Item.AllValid items → Item.AllNoVoidEnd items →
    outer.length + Item.closingDepths items ≤ kMaxDepth → EndsText rest →
    ∃ s', parseFrom s (Item.writeAll items ++ rest) = parseFrom s' rest ∧
      Opens outer ((Item.allNodes items).foldl Node.push inner) s' ∧ s'.warnings = s.warnings
  | [], s, _, _, _, h, _, _, _, _ => ⟨s, rfl, h, rfl⟩
  | item :: items, s, outer, inner, rest, h, hvalid, hvoid, hdepth, hrest => by
    simp only [Item.AllValid, Item.AllNoVoidEnd, Item.closingDepths] at hvalid hvoid hdepth
    obtain ⟨hitem, hitems, hnext⟩ := hvalid
    obtain ⟨s₁, hread₁, hopens₁, hwarnings₁⟩ := readItem item h hitem hvoid.1 (by omega)
      (fun htext => endsText_writeAll (hnext htext) hrest)
    obtain ⟨s₂, hread₂, hopens₂, hwarnings₂⟩ := readItems items hopens₁ hitems hvoid.2 (by omega)
      hrest
    rw [Item.writeAll, List.append_assoc, Item.allNodes, List.foldl_append, hread₁, hread₂]
    exact ⟨s₂, rfl, hopens₂, hwarnings₂.trans hwarnings₁⟩

end

end Opens

/-- A body whose elements are not too deep is parsed as its nodes, without a warning. -/
theorem parse_writeAll {content : List Item} (hvalid : Item.AllValid content)
    (hvoid : Item.AllNoVoidEnd content) (hdepth : Item.closingDepths content ≤ kMaxDepth) :
  ∃ s, parse (Item.writeAll content) = some s ∧
    s.root.children = Item.allNodes content ∧ s.warnings = []
  := by
  have hends : EndsText [] := nofun
  obtain ⟨s, hread, hopens, hwarnings⟩ := Opens.readItems content
    (show Opens [] (State.root {}) {} from ⟨rfl, rfl⟩) hvalid hvoid
    (by rwa [length_nil, Nat.zero_add]) hends
  rw [append_nil] at hread
  have hend : parseFrom s [] = some s := by rw [parseFrom, dif_pos rfl]
  have hopen : ¬ 1 < s.openStack.length := by rw [hopens.length]; exact lt_irrefl 1
  refine ⟨s, ?_, ?_, hwarnings⟩
  · rw [parse, hread, hend, Option.map_some, if_neg hopen]
  · rw [hopens.root]
    exact congrArg Node.children (foldl_push_element _ _ _ [] _)

end GRParse.Confluence
