import GRParse.Confluence.OpenElements

/-!
# Bodies of the storage format

What a well-formed body is: texts, CDATA, comments, instructions and elements, each element with its
own end tag or closed by its only tag, with any spaces that the format allows inside tags, and
with its attributes in quotes of either kind.

The parser reads such a body piece by piece.
-/

namespace GRParse.Confluence

open List

/-! ### Syntax -/

/-- An attribute as it is written, with the spaces before it and on both sides of the sign `=`. -/
structure RawAttribute where
  space : List UInt8
  name : List UInt8
  before : List UInt8
  after : List UInt8
  quote : UInt8
  value : List UInt8

structure Tag where
  name : List UInt8
  attributes : List RawAttribute
  space : List UInt8

/-- A piece of a body. -/
inductive Item where
  | text (raw : List UInt8)
  | cdata (raw : List UInt8)
  | comment (raw : List UInt8)
  | instruction (raw : List UInt8)
  | empty (tag : Tag)
  | element (tag : Tag) (content : List Item) (space : List UInt8)

namespace RawAttribute

def write (raw : RawAttribute) : List UInt8 :=
  raw.space ++ (raw.name ++ (raw.before ++ 0x3d :: (raw.after ++ raw.quote ::
    (raw.value ++ [raw.quote]))))

/-- The attribute that is written. -/
def read (raw : RawAttribute) : Attribute where
  nsPrefix := (splitName raw.name).1
  name := (splitName raw.name).2
  value := decodeEntities raw.value

structure Valid (raw : RawAttribute) : Prop where
  space : raw.space ≠ [] ∧ ∀ letter ∈ raw.space, isSpace letter
  name : ∀ letter ∈ raw.name, ¬ isSeparator letter
  named : splitName raw.name ≠ ([], [])
  before : ∀ letter ∈ raw.before, isSpace letter
  after : ∀ letter ∈ raw.after, isSpace letter
  quote : raw.quote = 0x22 ∨ raw.quote = 0x27
  value : raw.quote ∉ raw.value

end RawAttribute

namespace Tag

def write (tag : Tag) : List UInt8 :=
  tag.name ++ (tag.attributes.flatMap RawAttribute.write ++ tag.space)

/-- The element of a tag, with its children. -/
def read (tag : Tag) (children : List Node) : Node :=
  .element (splitName tag.name).1 (splitName tag.name).2 (tag.attributes.map RawAttribute.read)
    children

structure Valid (tag : Tag) : Prop where
  name : ∀ letter ∈ tag.name, ¬ isSeparator letter
  named : (splitName tag.name).2 ≠ []
  /-- The tag opens neither a declaration nor an instruction. -/
  opens : tag.name.head? ≠ some 0x21 ∧ tag.name.head? ≠ some 0x3f
  attributes : ∀ raw ∈ tag.attributes, raw.Valid
  space : ∀ letter ∈ tag.space, isSpace letter

/-- Whether the element never has an end tag in XHTML. -/
def isVoid (tag : Tag) : Bool :=
  Confluence.isVoid (splitName tag.name).1 (splitName tag.name).2

end Tag

namespace Item

def isText : Item → Bool
  | text _ => true
  | _ => false

mutual

def write : Item → List UInt8
  | text raw => raw
  | cdata raw => kCdataStart ++ (raw ++ kCdataEnd)
  | comment raw => kCommentStart ++ (raw ++ kCommentEnd)
  | instruction raw => kInstructionStart ++ (raw ++ kInstructionEnd)
  | empty tag => 0x3c :: (tag.write ++ [0x2f, 0x3e])
  | element tag content space =>
    0x3c :: (tag.write ++ 0x3e :: (writeAll content ++
      (kEndTagStart ++ (tag.name ++ (space ++ [0x3e])))))

def writeAll : List Item → List UInt8
  | [] => []
  | item :: items => item.write ++ writeAll items

end

mutual

/-- A piece is well-formed: an element has its own end tag, which names it. -/
def Valid : Item → Prop
  | text raw => raw ≠ [] ∧ 0x3c ∉ raw
  | cdata raw => ¬ kCdataEnd <:+: raw
  | comment raw => ¬ kCommentEnd <:+: raw
  | instruction raw => ¬ kInstructionEnd <:+: raw
  | empty tag => tag.Valid
  | element tag content space => tag.Valid ∧ AllValid content ∧ ∀ letter ∈ space, isSpace letter

/-- Pieces are well-formed, and no text is beside another one. -/
def AllValid : List Item → Prop
  | [] => True
  | item :: items =>
    item.Valid ∧ AllValid items ∧ (item.isText → ∀ next ∈ items.head?, ¬ next.isText)

end

mutual

/-- The nodes of a piece. -/
def nodes : Item → List Node
  | text raw => [.ofText (decodeEntities raw)]
  | cdata raw => [.ofText raw]
  | comment _ => []
  | instruction _ => []
  | empty tag => [tag.read []]
  | element tag content _ => [tag.read (allNodes content)]

def allNodes : List Item → List Node
  | [] => []
  | item :: items => item.nodes ++ allNodes items

end

mutual

/-- How deep the elements that have an end tag are nested. -/
def closingDepth : Item → ℕ
  | element _ content _ => closingDepths content + 1
  | _ => 0

def closingDepths : List Item → ℕ
  | [] => 0
  | item :: items => max item.closingDepth (closingDepths items)

end

mutual

/-- No void element has an end tag. -/
def NoVoidEnd : Item → Prop
  | element tag content _ => ¬ tag.isVoid ∧ AllNoVoidEnd content
  | _ => True

def AllNoVoidEnd : List Item → Prop
  | [] => True
  | item :: items => item.NoVoidEnd ∧ AllNoVoidEnd items

end

end Item

/-! ### Reading tags -/

/-- The rest of an input does not go on with what a scan takes. -/
def StopsAt (p : UInt8 → Bool) (rest : List UInt8) : Prop :=
  ∀ letter ∈ rest.head?, ¬ p letter

theorem scan_append {p : UInt8 → Bool} {taken rest : List UInt8} (h : ∀ letter ∈ taken, p letter)
    (hrest : StopsAt p rest) :
  (taken ++ rest).takeWhile p = taken ∧ (taken ++ rest).dropWhile p = rest
  := by
  have hstop : rest.takeWhile p = [] ∧ rest.dropWhile p = rest := by
    cases rest with
    | nil => exact ⟨rfl, rfl⟩
    | cons letter rest =>
      have hletter := hrest letter rfl
      exact ⟨takeWhile_cons_of_neg hletter, dropWhile_cons_of_neg hletter⟩
  rw [takeWhile_append_of_pos h, dropWhile_append_of_pos h, hstop.1, hstop.2]
  exact ⟨append_nil _, rfl⟩

theorem skipSpace_append {spaces rest : List UInt8} (h : ∀ letter ∈ spaces, isSpace letter)
    (hrest : StopsAt isSpace rest) :
  skipSpace (spaces ++ rest) = rest
  := (scan_append h hrest).2

theorem readName_append {name rest : List UInt8} (h : ∀ letter ∈ name, ¬ isSeparator letter)
    (hrest : ∀ letter ∈ rest.head?, isSeparator letter) :
  readName (name ++ rest) = (splitName name, rest)
  := by
  have hname : ∀ letter ∈ name, !isSeparator letter := by simpa using h
  have hstop : StopsAt (fun letter => !isSeparator letter) rest := by
    intro letter hletter
    simp [hrest letter hletter]
  obtain ⟨htake, hdrop⟩ := scan_append hname hstop
  rw [readName, htake, hdrop]

theorem readValue_quoted {quote : UInt8} {value : List UInt8} (hquote : quote = 0x22 ∨ quote = 0x27)
    (hvalue : quote ∉ value) (rest : List UInt8) :
  readValue (quote :: (value ++ quote :: rest)) = (decodeEntities value, rest)
  := by
  have htaken : ∀ letter ∈ value, decide (letter ≠ quote) := by
    intro letter hletter
    apply decide_eq_true
    rintro rfl
    exact hvalue hletter
  have hstop : StopsAt (fun letter => decide (letter ≠ quote)) (quote :: rest) := by simp [StopsAt]
  obtain ⟨htake, hdrop⟩ := scan_append htaken hstop
  rw [readValue, if_pos hquote, htake, hdrop, drop_succ_cons, drop_zero]

variable {letter : UInt8}

theorem isSeparator_of_isSpace (h : isSpace letter) :
  isSeparator letter
  := by
  rw [isSeparator, h]
  rfl

/-- A list of spaces and a separator behind it begin with a separator. -/
theorem separator_of_spaces {spaces rest : List UInt8} (h : ∀ letter ∈ spaces, isSpace letter)
    (hletter : isSeparator letter) :
  ∀ first ∈ (spaces ++ letter :: rest).head?, isSeparator first
  := by
  cases spaces with
  | nil =>
    rintro _ ⟨⟩
    exact hletter
  | cons space spaces =>
    rintro _ ⟨⟩
    exact isSeparator_of_isSpace (h space mem_cons_self)

/-- The spaces before an attribute, or before the end of a tag, end a name. -/
theorem separator_of_attributes {attributes : List RawAttribute} {space rest : List UInt8}
    (h : ∀ raw ∈ attributes, raw.Valid) (hspace : ∀ letter ∈ space, isSpace letter)
    (hletter : isSeparator letter) :
  ∀ first ∈ (attributes.flatMap RawAttribute.write ++ (space ++ letter :: rest)).head?,
    isSeparator first
  := by
  cases attributes with
  | nil => exact separator_of_spaces hspace hletter
  | cons raw attributes =>
    have hraw := h raw mem_cons_self
    obtain ⟨first, spaces, hfirst⟩ := exists_cons_of_ne_nil hraw.space.1
    rw [flatMap_cons, RawAttribute.write, hfirst]
    rintro _ ⟨⟩
    exact isSeparator_of_isSpace (hraw.space.2 first (by rw [hfirst]; exact mem_cons_self))

/-- A name that is not empty has a first byte, which is no separator and so no space. -/
theorem exists_head_of_splitName {name : List UInt8} (h : ∀ letter ∈ name, ¬ isSeparator letter)
    (hnamed : splitName name ≠ ([], [])) :
  ∃ first rest, name = first :: rest ∧ ¬ isSeparator first
  := by
  cases name with
  | nil => exact absurd rfl hnamed
  | cons first rest => exact ⟨first, rest, rfl, h first mem_cons_self⟩

theorem ne_of_not_isSeparator (h : ¬ isSeparator letter) :
  ¬ isSpace letter ∧ letter ≠ 0x3e ∧ letter ≠ 0x2f ∧ letter ≠ 0x3d
  := by
  simpa [isSeparator, not_or, and_assoc] using h

theorem isSpace_markup :
  ¬ isSpace 0x3c ∧ ¬ isSpace 0x3d ∧ ¬ isSpace 0x3e ∧ ¬ isSpace 0x2f ∧ ¬ isSpace 0x22 ∧
    ¬ isSpace 0x27
  := by
  decide

theorem RawAttribute.Valid.readAttributes {raw : RawAttribute} (h : raw.Valid)
    (attributes : List Attribute) (rest : List UInt8) :
  readAttributes attributes (raw.write ++ rest) = readAttributes (attributes ++ [raw.read]) rest
  := by
  obtain ⟨first, more, hfirst, hsep⟩ := exists_head_of_splitName h.name h.named
  obtain ⟨hspace, hgt, hslash, hequals⟩ := ne_of_not_isSeparator hsep
  have hwrite : raw.write ++ rest = raw.space ++ (raw.name ++ (raw.before ++ 0x3d ::
      (raw.after ++ raw.quote :: (raw.value ++ raw.quote :: rest)))) := by
    simp [RawAttribute.write]
  have hskip : skipSpace (raw.write ++ rest) = first :: (more ++ (raw.before ++ 0x3d ::
      (raw.after ++ raw.quote :: (raw.value ++ raw.quote :: rest)))) := by
    rw [hwrite, hfirst]
    apply skipSpace_append h.space.2
    rintro _ ⟨⟩
    exact hspace
  have hname : readName (first :: (more ++ (raw.before ++ 0x3d ::
      (raw.after ++ raw.quote :: (raw.value ++ raw.quote :: rest))))) =
      (splitName raw.name, raw.before ++ 0x3d ::
        (raw.after ++ raw.quote :: (raw.value ++ raw.quote :: rest))) := by
    rw [← cons_append, ← hfirst]
    exact readName_append h.name (separator_of_spaces h.before (by decide))
  have hbehind : skipSpace (raw.before ++ 0x3d ::
      (raw.after ++ raw.quote :: (raw.value ++ raw.quote :: rest))) =
      0x3d :: (raw.after ++ raw.quote :: (raw.value ++ raw.quote :: rest)) := by
    apply skipSpace_append h.before
    rintro _ ⟨⟩
    exact isSpace_markup.2.1
  have hquote : skipSpace (raw.after ++ raw.quote :: (raw.value ++ raw.quote :: rest)) =
      raw.quote :: (raw.value ++ raw.quote :: rest) := by
    apply skipSpace_append h.after
    rintro _ ⟨⟩
    rcases h.quote with hquote | hquote <;> rw [hquote]
    · exact isSpace_markup.2.2.2.2.1
    · exact isSpace_markup.2.2.2.2.2
  rw [Confluence.readAttributes]
  split
  case h_1 hnil => rw [hskip] at hnil; cases hnil
  case h_2 letter rest' hcons =>
    obtain ⟨rfl, rfl⟩ := cons.inj (hskip.symm.trans hcons)
    dsimp only
    rw [if_neg hgt, if_neg hslash, hname, dif_neg h.named]
    dsimp only
    rw [hbehind, head?_cons, if_pos rfl, drop_succ_cons, drop_zero, hquote,
      readValue_quoted h.quote h.value]
    rfl

/-- Attributes that are written are read. -/
theorem readAttributes_write {raws : List RawAttribute} (h : ∀ raw ∈ raws, raw.Valid)
    (attributes : List Attribute) (rest : List UInt8) :
  readAttributes attributes (raws.flatMap RawAttribute.write ++ rest) =
    readAttributes (attributes ++ raws.map RawAttribute.read) rest
  := by
  induction raws generalizing attributes with
  | nil => rw [flatMap_nil, map_nil, append_nil, nil_append]
  | cons raw raws ih =>
    obtain ⟨hraw, hraws⟩ := forall_mem_cons.mp h
    rw [flatMap_cons, append_assoc, hraw.readAttributes, ih hraws, map_cons,
      append_assoc, singleton_append]

theorem readAttributes_end {space : List UInt8} (h : ∀ letter ∈ space, isSpace letter)
    (attributes : List Attribute) (rest : List UInt8) :
  readAttributes attributes (space ++ 0x3e :: rest) = { attributes, terminated := true, rest }
  := by
  have hskip : skipSpace (space ++ 0x3e :: rest) = 0x3e :: rest := by
    apply skipSpace_append h
    rintro _ ⟨⟩
    exact isSpace_markup.2.2.1
  rw [readAttributes]
  split
  case h_1 hnil => rw [hskip] at hnil; cases hnil
  case h_2 letter rest' hcons =>
    obtain ⟨rfl, rfl⟩ := cons.inj (hskip.symm.trans hcons)
    rfl

theorem readAttributes_empty {space : List UInt8} (h : ∀ letter ∈ space, isSpace letter)
    (attributes : List Attribute) (rest : List UInt8) :
  readAttributes attributes (space ++ 0x2f :: 0x3e :: rest) =
    { attributes, selfClosing := true, terminated := true, rest }
  := by
  have hskip : skipSpace (space ++ 0x2f :: 0x3e :: rest) = 0x2f :: 0x3e :: rest := by
    apply skipSpace_append h
    rintro _ ⟨⟩
    exact isSpace_markup.2.2.2.1
  have hbehind : skipSpace (0x3e :: rest) = 0x3e :: rest :=
    dropWhile_cons_of_neg isSpace_markup.2.2.1
  rw [readAttributes]
  split
  case h_1 hnil => rw [hskip] at hnil; cases hnil
  case h_2 letter rest' hcons =>
    obtain ⟨rfl, rfl⟩ := cons.inj (hskip.symm.trans hcons)
    dsimp only
    rw [if_neg (by decide), if_pos rfl, hbehind]
    rfl

/-! ### Reading pieces -/

/-- A token whose last byte is nowhere else in it ends what does not have it inside. -/
theorem splitAtToken_append {stem : List UInt8} {last : UInt8} (hlast : last ∉ stem)
    {raw : List UInt8} (h : ¬ stem ++ [last] <:+: raw) (rest : List UInt8) :
  splitAtToken (stem ++ [last]) (raw ++ (stem ++ [last] ++ rest)) = some (raw, rest)
  := by
  induction raw with
  | nil =>
    obtain ⟨first, more, hfirst⟩ := exists_cons_of_ne_nil (l := stem ++ [last]) (by simp)
    have hstarts : startsWith (first :: more) (first :: (more ++ rest)) :=
      isPrefixOf_iff_prefix.mpr (prefix_append (first :: more) rest)
    rw [hfirst, nil_append, cons_append, splitAtToken, if_pos hstarts,
      ← cons_append, drop_left]
  | cons letter raw ih =>
    have hraw : ¬ stem ++ [last] <:+: raw := fun hpart =>
      h (hpart.trans (suffix_cons letter raw).isInfix)
    have hstarts : ¬ startsWith (stem ++ [last]) (letter :: (raw ++ (stem ++ [last] ++ rest))) := by
      intro hstarts
      have hbegins : stem ++ [last] <+: letter :: raw ++ (stem ++ [last] ++ rest) :=
        isPrefixOf_iff_prefix.mp hstarts
      by_cases hlength : (stem ++ [last]).length ≤ (letter :: raw).length
      · exact h (prefix_of_prefix_length_le hbegins (prefix_append _ _) hlength).isInfix
      -- The last byte of the token would be in the stem of the token behind.
      · rw [length_append, length_singleton] at hlength
        obtain ⟨more, hmore⟩ : letter :: raw <+: stem ++ [last] := by
          apply prefix_of_prefix_length_le (prefix_append _ _) hbegins
          rw [length_append, length_singleton]
          omega
        have hlengths : (letter :: raw).length + more.length = stem.length + 1 := by
          rw [← length_append, hmore, length_append, length_singleton]
        rw [length_cons] at hlength hlengths
        rw [← hmore, prefix_append_right_inj, hmore, append_assoc] at hbegins
        have hstem : more <+: stem :=
          prefix_of_prefix_length_le hbegins (prefix_append _ _) (by omega)
        have hmem : last ∈ more := by
          have hlast := congrArg getLast? hmore
          have hne : more ≠ [] := by
            rintro rfl
            rw [length_nil] at hlengths
            omega
          rw [getLast?_append_of_ne_nil _ hne, getLast?_concat] at hlast
          exact mem_of_getLast? hlast
        exact hlast (hstem.subset hmem)
    rw [cons_append, splitAtToken, if_neg hstarts, ih hraw]
    rfl

end GRParse.Confluence
