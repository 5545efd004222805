import GRParse.Confluence.StorageReading

/-!
# Deep elements

An element beyond the limit is kept without being opened, but its end tag is not dropped: it closes
an open element by that name, or it is warned of.  A body is therefore read as what it is just
when no element with an end tag is beyond the limit, and no void element has one.
-/

namespace GRParse.Confluence

namespace Item

mutual

/-- The nodes of a piece when so many levels of elements are kept; what is deeper is put beside its
ancestor at the last level. -/
def place : Item → ℕ → List Node
  | element tag content _, 0 => tag.read [] :: placeAll content 0
  | element tag content _, levels + 1 => [tag.read (placeAll content levels)]
  | item, _ => item.nodes

def placeAll : List Item → ℕ → List Node
  | [], _ => []
  | item :: items, levels => item.place levels ++ placeAll items levels

end

mutual

theorem place_of_closingDepth_le : ∀ (item : Item) {levels : ℕ}, item.closingDepth ≤ levels →
    item.place levels = item.nodes
  | element tag content space, levels, h => by
    rw [closingDepth] at h
    obtain ⟨more, rfl⟩ := Nat.exists_eq_add_of_le' h
    rw [← Nat.add_assoc, place, nodes, placeAll_of_closingDepths_le content (by omega)]
  | text _, _, _ => by simp [place]
  | cdata _, _, _ => by simp [place]
  | comment _, _, _ => by simp [place]
  | instruction _, _, _ => by simp [place]
  | empty _, _, _ => by simp [place]

/-- Pieces that are not too deep are all at their places. -/
theorem placeAll_of_closingDepths_le : ∀ (items : List Item) {levels : ℕ},
    closingDepths items ≤ levels → placeAll items levels = allNodes items
  | [], _, _ => by rw [placeAll, allNodes]
  | item :: items, levels, h => by
    rw [closingDepths] at h
    rw [placeAll, allNodes, place_of_closingDepth_le item (by omega),
      placeAll_of_closingDepths_le items (by omega)]

end

end Item

/-- A body is parsed with each element and each text under its own elements up to the limit, and
with no warning of an end tag. -/
def StaysLocal (content : List Item) : Prop :=
  ∃ s, parse (Item.writeAll content) = some s ∧
    s.root.children = Item.placeAll content kMaxDepth ∧
    ∀ warning ∈ s.warnings, ¬ warning.ofEndTag

/-- Some input is read, and if no end tag is warned of, then no more elements are open behind it
than there were, and fewer if it does not fit. -/
def ReadsWithin (s : State) (count : ℕ) (input rest : List UInt8) (fits : Prop) : Prop :=
  ∃ s' outer inner more, parseFrom s (input ++ rest) = parseFrom s' rest ∧ Opens outer inner s' ∧
    s'.warnings = s.warnings ++ more ∧
    ((∀ warning ∈ more, ¬ warning.ofEndTag) →
      outer.length ≤ count ∧ (¬ fits → outer.length < count))

variable {s : State} {outer : List Node} {inner : Node}

namespace Opens

/-- A piece without an end tag leaves the open elements as they are. -/
theorem readsWithin_leaf (h : Opens outer inner s) {item : Item} {rest : List UInt8}
    {fits : Prop} (hvalid : item.Valid)
    (hleaf : ∀ tag content space, item ≠ .element tag content space)
    (hrest : item.isText → EndsText rest) (hfits : fits) :
  ReadsWithin s outer.length item.write rest fits
  := by
  obtain ⟨s', hread, hopens, hwarnings⟩ := h.readLeaf hvalid hleaf hrest
  refine ⟨s', outer, _, [], hread, hopens, hwarnings.trans (List.append_nil _).symm, ?_⟩
  exact fun _ => ⟨le_rfl, fun hnot => absurd hfits hnot⟩

mutual

/-- A piece closes more than it opens if it has an element that is too deep or a void one, or it
is warned of one of its end tags. -/
theorem readsWithin_item : ∀ (item : Item) {s : State} {outer : List Node} {inner : Node}
    {rest : List UInt8}, Opens outer inner s → item.Valid → (item.isText → EndsText rest) →
    ReadsWithin s outer.length item.write rest
      (item.closingDepth ≤ kMaxDepth - outer.length ∧ item.NoVoidEnd)
  | .element tag content space, s, outer, inner, rest, h, hvalid, _ => by
    simp only [Item.Valid] at hvalid
    obtain ⟨htag, hcontent, hspace⟩ := hvalid
    have hends : EndsText (kEndTagStart ++ (tag.name ++ (space ++ [0x3e])) ++ rest) :=
      endsText_cons _
    have hwrite : (Item.element tag content space).write ++ rest =
        0x3c :: (tag.write ++ 0x3e :: (Item.writeAll content ++
          (kEndTagStart ++ (tag.name ++ (space ++ [0x3e])) ++ rest))) := by
      simp [Item.write]
    by_cases hclosed : tag.isVoid ∨ kMaxDepth ≤ outer.length
    -- The element is not opened: its end tag closes another one.
    · obtain ⟨s₁, more₁, hstart, hopens₁, hwarnings₁, _⟩ := h.readStartTag_closed htag hclosed
        (Item.writeAll content ++ (kEndTagStart ++ (tag.name ++ (space ++ [0x3e])) ++ rest))
      obtain ⟨s₂, outer₂, inner₂, more₂, hread, hopens₂, hwarnings₂, hwithin⟩ :=
        readsWithin_items content hopens₁ hcontent hends
      obtain ⟨s₃, outer₃, inner₃, more₃, hend, hopens₃, hwarnings₃, hclose⟩ :=
        hopens₂.readEndTag_length htag.name hspace rest
      refine ⟨s₃, outer₃, inner₃, more₁ ++ more₂ ++ more₃, ?_, hopens₃, ?_, ?_⟩
      · rw [hwrite, hstart, hread, hend]
      · rw [hwarnings₃, hwarnings₂, hwarnings₁, List.append_assoc, List.append_assoc,
          List.append_assoc]
      · intro hnone
        rw [List.forall_mem_append, List.forall_mem_append] at hnone
        have hle := (hwithin hnone.1.2).1
        have hlt := hclose hnone.2
        exact ⟨by omega, fun _ => by omega⟩
    · rw [not_or, Nat.not_le] at hclosed
      obtain ⟨s₁, hstart, hopens₁, hwarnings₁⟩ := h.readStartTag htag hclosed.1 hclosed.2
        (Item.writeAll content ++ (kEndTagStart ++ (tag.name ++ (space ++ [0x3e])) ++ rest))
      obtain ⟨s₂, outer₂, inner₂, more₂, hread, hopens₂, hwarnings₂, hwithin⟩ :=
        readsWithin_items content hopens₁ hcontent hends
      obtain ⟨s₃, outer₃, inner₃, more₃, hend, hopens₃, hwarnings₃, hclose⟩ :=
        hopens₂.readEndTag_length htag.name hspace rest
      refine ⟨s₃, outer₃, inner₃, more₂ ++ more₃, ?_, hopens₃, ?_, ?_⟩
      · rw [hwrite, hstart, hread, hend]
      · rw [hwarnings₃, hwarnings₂, hwarnings₁, List.append_assoc]
      · intro hnone
        rw [List.forall_mem_append] at hnone
        obtain ⟨hle, hfewer⟩ := hwithin hnone.1
        have hlt := hclose hnone.2
        rw [List.length_append, List.length_singleton] at hle hfewer
        refine ⟨by omega, fun hnot => ?_⟩
        have hcontentNot : ¬ (Item.closingDepths content ≤ kMaxDepth - (outer.length + 1) ∧
            Item.AllNoVoidEnd content) := by
          rintro ⟨hdepth, hvoid⟩
          apply hnot
          rw [Item.closingDepth, Item.NoVoidEnd]
          exact ⟨by omega, hclosed.1, hvoid⟩
        have hless := hfewer hcontentNot
        omega
  | .text _, _, _, _, _, h, hvalid, hrest => by
    apply h.readsWithin_leaf hvalid nofun hrest
    simp [Item.closingDepth, Item.NoVoidEnd]
  | .cdata _, _, _, _, _, h, hvalid, hrest => by
    apply h.readsWithin_leaf hvalid nofun hrest
    simp [Item.closingDepth, Item.NoVoidEnd]
  | .comment _, _, _, _, _, h, hvalid, hrest => by
    apply h.readsWithin_leaf hvalid nofun hrest
    simp [Item.closingDepth, Item.NoVoidEnd]
  | .instruction _, _, _, _, _, h, hvalid, hrest => by
    apply h.readsWithin_leaf hvalid nofun hrest
    simp [Item.closingDepth, Item.NoVoidEnd]
  | .empty _, _, _, _, _, h, hvalid, hrest => by
    apply h.readsWithin_leaf hvalid nofun hrest
    simp [Item.closingDepth, Item.NoVoidEnd]

theorem readsWithin_items : ∀ (items : List Item) {s : State} {outer : List Node} {inner : Node}
    {rest : List UInt8}, Opens outer inner s → Item.AllValid items → EndsText rest →
    ReadsWithin s outer.length (Item.writeAll items) rest
      (Item.closingDepths items ≤ kMaxDepth - outer.length ∧ Item.AllNoVoidEnd items)
  | [], s, outer, inner, rest, h, _, _ => by
    refine ⟨s, outer, inner, [], rfl, h, (List.append_nil _).symm, ?_⟩
    refine fun _ => ⟨le_rfl, fun hnot => absurd ?_ hnot⟩
    simp [Item.closingDepths, Item.AllNoVoidEnd]
  | item :: items, s, outer, inner, rest, h, hvalid, hrest => by
    rw [Item.AllValid] at hvalid
    obtain ⟨hitem, hitems, hnext⟩ := hvalid
    obtain ⟨s₁, outer₁, inner₁, more₁, hread₁, hopens₁, hwarnings₁, hwithin₁⟩ :=
      readsWithin_item item h hitem (fun htext => endsText_writeAll (hnext htext) hrest)
    obtain ⟨s₂, outer₂, inner₂, more₂, hread₂, hopens₂, hwarnings₂, hwithin₂⟩ :=
      readsWithin_items items hopens₁ hitems hrest
    refine ⟨s₂, outer₂, inner₂, more₁ ++ more₂, ?_, hopens₂, ?_, ?_⟩
    · rw [Item.writeAll, List.append_assoc, hread₁, hread₂]
    · rw [hwarnings₂, hwarnings₁, List.append_assoc]
    · intro hnone
      rw [List.forall_mem_append] at hnone
      obtain ⟨hle₁, hfewer₁⟩ := hwithin₁ hnone.1
      obtain ⟨hle₂, hfewer₂⟩ := hwithin₂ hnone.2
      refine ⟨hle₂.trans hle₁, fun hnot => ?_⟩
      by_cases hfirst : item.closingDepth ≤ kMaxDepth - outer.length ∧ item.NoVoidEnd
      · rcases hle₁.lt_or_eq with hlt | heq
        · omega
        · have hothers : ¬ (Item.closingDepths items ≤ kMaxDepth - outer₁.length ∧
              Item.AllNoVoidEnd items) := by
            rintro ⟨hdepth, hvoid⟩
            apply hnot
            rw [Item.closingDepths, Item.AllNoVoidEnd]
            exact ⟨by omega, hfirst.2, hvoid⟩
          have hless := hfewer₂ hothers
          omega
      · have hless := hfewer₁ hfirst
        omega

end

end Opens

/-- A body in which no end tag is warned of has no end tag of an element that is void or too
deep. -/
theorem fits_of_warnings {content : List Item} (hvalid : Item.AllValid content) {s : State}
    (hparse : parse (Item.writeAll content) = some s)
    (hnone : ∀ warning ∈ s.warnings, ¬ warning.ofEndTag) :
  Item.closingDepths content ≤ kMaxDepth ∧ Item.AllNoVoidEnd content
  := by
  by_contra hnot
  obtain ⟨s', outer, inner, more, hread, hopens, hwarnings, hwithin⟩ :=
    Opens.readsWithin_items content (show Opens [] (State.root {}) {} from ⟨rfl, rfl⟩) hvalid
      (show EndsText [] from nofun)
  have hend : parseFrom s' [] = some s' := by rw [parseFrom, dif_pos rfl]
  rw [List.append_nil, hend] at hread
  rw [parse, hread, Option.map_some] at hparse
  have hmore : ∀ warning ∈ more, ¬ warning.ofEndTag := by
    intro warning hmem
    apply hnone
    rw [← Option.some.inj hparse]
    split
    case isTrue =>
      rw [State.warn, hwarnings]
      exact List.mem_append_left _ (List.mem_append_right _ hmem)
    case isFalse =>
      rw [hwarnings]
      exact List.mem_append_right _ hmem
  exact Nat.not_lt_zero _ ((hwithin hmore).2 hnot)

/-- Elements are kept at their places just in the bodies in which every element with an end tag is
opened. -/
theorem deepElements_stayLocal (content : List Item) (hvalid : Item.AllValid content) :
  StaysLocal content ↔ Item.closingDepths content ≤ kMaxDepth ∧ Item.AllNoVoidEnd content
  := by
  constructor
  case mp =>
    rintro ⟨s, hparse, _, hnone⟩
    exact fits_of_warnings hvalid hparse hnone
  case mpr =>
    rintro ⟨hdepth, hvoid⟩
    obtain ⟨s, hparse, hroot, hwarnings⟩ := parse_writeAll hvalid hvoid hdepth
    refine ⟨s, hparse, ?_, ?_⟩
    · rw [hroot, Item.placeAll_of_closingDepths_le content hdepth]
    · rw [hwarnings]
      exact nofun

/-- Paragraphs inside each other. -/
def nested : ℕ → List Item
  | 0 => []
  | count + 1 => [.element ⟨[0x70], [], []⟩ (nested count) []]

theorem allValid_nested (count : ℕ) :
  Item.AllValid (nested count)
  := by
  induction count with
  | zero => rw [nested, Item.AllValid]; trivial
  | succ count ih =>
    have htag : Tag.Valid ⟨[0x70], [], []⟩ := by
      constructor <;> simp [isSeparator, isSpace, splitName, lowercase]
    rw [nested, Item.AllValid, Item.AllValid, Item.Valid]
    refine ⟨⟨htag, ih, ?_⟩, trivial, ?_⟩ <;> simp

theorem closingDepths_nested (count : ℕ) :
  Item.closingDepths (nested count) = count
  := by
  induction count with
  | zero => rw [nested, Item.closingDepths]
  | succ count ih =>
    rw [nested, Item.closingDepths, Item.closingDepths, Item.closingDepth, ih, Nat.max_zero]

/-- A paragraph. -/
theorem deepElements_stayLocal_paragraph :
  StaysLocal (nested 1) ↔ Item.closingDepths (nested 1) ≤ kMaxDepth ∧ Item.AllNoVoidEnd (nested 1)
  := deepElements_stayLocal (nested 1) (allValid_nested 1)

/-- With one paragraph more than the limit, the end tag of the innermost closes the one around it,
and the end tag of the outermost closes nothing. -/
theorem deepElements_closeOthers :
  Item.AllValid (nested 257) ∧ ¬ StaysLocal (nested 257)
  := by
  refine ⟨allValid_nested 257, ?_⟩
  rintro ⟨s, hparse, _, hnone⟩
  have hdepth := (fits_of_warnings (allValid_nested 257) hparse hnone).1
  rw [closingDepths_nested] at hdepth
  exact absurd hdepth (by decide)

end GRParse.Confluence
