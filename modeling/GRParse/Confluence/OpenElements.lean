import GRParse.Confluence.StorageParser
import Mathlib.Data.List.Infix
import Mathlib.Order.Lattice

/-!
# The elements that are open

The stack of the parser points to the elements from the root to the innermost one, each of which is
the last child of the one before.  No pointer of it goes through a vector that grows, so that the
parser never uses one that dangles.

Whatever the input is, the parser reads it, every text node that it makes is in the tree, and the
tree is bounded.
-/

namespace GRParse.Confluence

open List

/-! ### Trees -/

namespace Node

mutual

/-- How many steps the deepest node is below a node. -/
def height : Node → ℕ
  | mk _ _ _ _ _ children => heights children

/-- How many steps the deepest of some children is below their parent. -/
def heights : List Node → ℕ
  | [] => 0
  | child :: children => max (child.height + 1) (heights children)

end

mutual

/-- The texts of a tree, in order. -/
def texts : Node → List (List UInt8)
  | mk textNode _ _ text _ children => (if textNode then [text] else []) ++ textsOf children

/-- The texts of some trees. -/
def textsOf : List Node → List (List UInt8)
  | [] => []
  | child :: children => child.texts ++ textsOf children

end

theorem heights_append (children more : List Node) :
  heights (children ++ more) = max (heights children) (heights more)
  := by
  induction children with
  | nil => simp [heights]
  | cons child children ih => rw [cons_append, heights, heights, ih, max_assoc]

theorem textsOf_append (children more : List Node) :
  textsOf (children ++ more) = textsOf children ++ textsOf more
  := by
  induction children with
  | nil => simp [textsOf]
  | cons child children ih => rw [cons_append, textsOf, textsOf, ih, append_assoc]

theorem height_push (child node : Node) :
  (node.push child).height = max node.height (child.height + 1)
  := by
  cases node
  rw [push, height, height, heights_append, heights, heights, Nat.max_zero]

theorem texts_push (child node : Node) :
  (node.push child).texts = node.texts ++ child.texts
  := by
  cases node
  rw [push, texts, texts, textsOf_append, textsOf, textsOf, append_nil, append_assoc]

@[simp]
theorem children_push (child node : Node) :
  (node.push child).children = node.children ++ [child]
  := by
  cases node
  rfl

theorem pushAt_push (child last node : Node) (path : List ℕ) :
  pushAt child (node.children.length :: path) (node.push last) =
    (pushAt child path last).map fun last => node.push last
  := by
  cases node with
  | mk textNode nsPrefix name text attributes children =>
    have hget : (children ++ [last])[children.length]? = some last := by simp
    have hset : ∀ other, (children ++ [last]).set children.length other = children ++ [other] := by
      intro other
      rw [set_append_right _ _ le_rfl, Nat.sub_self]
      rfl
    rw [push, Node.children, pushAt, hget, Option.bind_some]
    simp only [hset]
    rfl

theorem at?_push (last node : Node) (path : List ℕ) :
  (node.push last).at? (node.children.length :: path) = last.at? path
  := by
  rw [at?, children_push]
  simp

end Node

open Node

/-! ### Open elements -/

/-- The tree of some open elements, the innermost one last; each is the last child of the one
before. -/
def build (outer : List Node) (inner : Node) : Node :=
  outer.foldr (fun node last => node.push last) inner

/-- The path of the innermost element. -/
def pathTo (outer : List Node) : List ℕ :=
  outer.map fun node => node.children.length

theorem build_append (outer outer' : List Node) (inner : Node) :
  build (outer ++ outer') inner = build outer (build outer' inner)
  := foldr_append

/-- To open an element is to put it into the innermost one. -/
theorem build_concat (outer : List Node) (inner child : Node) :
  build (outer ++ [inner]) child = build outer (inner.push child)
  := build_append outer [inner] child

theorem pushAt_build (outer : List Node) (inner child : Node) :
  pushAt child (pathTo outer) (build outer inner) = some (build outer (inner.push child))
  := by
  induction outer with
  | nil => rfl
  | cons node outer ih =>
    change pushAt child (node.children.length :: pathTo outer) (node.push (build outer inner)) = _
    rw [pushAt_push, ih]
    rfl

theorem at?_build (outer : List Node) (inner : Node) (depth : ℕ) (h : depth ≤ outer.length) :
  (build outer inner).at? ((pathTo outer).take depth) = some (build (outer.drop depth) inner)
  := by
  induction outer generalizing depth with
  | nil =>
    obtain rfl : depth = 0 := Nat.le_zero.mp h
    rfl
  | cons node outer ih =>
    cases depth with
    | zero => rfl
    | succ depth =>
      change (node.push (build outer inner)).at?
        (node.children.length :: (pathTo outer).take depth) = _
      rw [at?_push, ih depth (Nat.le_of_succ_le_succ h), drop_succ_cons]

theorem height_build_push (outer : List Node) (inner child : Node) :
  (build outer (inner.push child)).height =
    max (build outer inner).height (outer.length + 1 + child.height)
  := by
  induction outer with
  | nil =>
    change (inner.push child).height = max inner.height _
    rw [height_push, length_nil]
    omega
  | cons node outer ih =>
    change (node.push (build outer (inner.push child))).height =
      max (node.push (build outer inner)).height _
    rw [height_push, height_push, ih, length_cons]
    omega

theorem texts_build_push (outer : List Node) (inner child : Node) :
  (build outer (inner.push child)).texts = (build outer inner).texts ++ child.texts
  := by
  induction outer with
  | nil => exact texts_push child inner
  | cons node outer ih =>
    change (node.push (build outer (inner.push child))).texts =
      (node.push (build outer inner)).texts ++ _
    rw [texts_push, texts_push, ih, append_assoc]

/-- The name of an open element, whatever is open inside it. -/
def qualified (node : Node) : List UInt8 × List UInt8 :=
  (node.nsPrefix, node.name)

/-! ### The stack -/

/-- The tree and the stack are those of some open elements. -/
structure Opens (outer : List Node) (inner : Node) (s : State) : Prop where
  root : s.root = build outer inner
  openStack : s.openStack = (pathTo outer).inits

variable {outer : List Node} {inner : Node} {s : State}

namespace Opens

theorem length (h : Opens outer inner s) :
  s.openStack.length = outer.length + 1
  := by
  rw [h.openStack, length_inits, pathTo, length_map]

theorem getLast? (h : Opens outer inner s) :
  s.openStack.getLast? = some (pathTo outer)
  := by
  rw [h.openStack, getLast?_eq_getElem?, length_inits, Nat.add_sub_cancel,
    getElem?_eq_getElem (by rw [length_inits]; exact Nat.lt_succ_self _),
    getElem_inits, take_length]

/-- A child is put into the innermost element, through a pointer that is valid. -/
theorem pushBack (h : Opens outer inner s) (child : Node) :
  s.pushBack child = some { s with root := build outer (inner.push child) }
  := by
  have hvalid : (s.openStack.any fun other =>
      (pathTo outer).isPrefixOf other && (pathTo outer).length < other.length) = false := by
    rw [any_eq_false]
    intro other hother
    rw [h.openStack, mem_inits] at hother
    have hle := hother.length_le
    simp only [Bool.and_eq_true, decide_eq_true_eq, not_and]
    intro _
    omega
  rw [State.pushBack, h.getLast?]
  simp only [hvalid, Bool.false_eq_true, if_false]
  rw [h.root, pushAt_build]
  rfl

theorem appendText (h : Opens outer inner s) (text : List UInt8) :
  s.appendText text = some
    { s with root := build outer (inner.push (.ofText text)), made := s.made ++ [text] }
  := by
  rw [State.appendText, h.pushBack]
  rfl

/-- The elements that stay open when the last ones are closed. -/
theorem take (h : Opens outer inner s) {depth : ℕ} (hdepth : depth < outer.length) :
  Opens (outer.take depth) (build (outer.drop depth) inner)
    { s with openStack := s.openStack.take (depth + 1) }
  := by
  constructor
  case root => rw [← build_append, take_append_drop, h.root]
  case openStack =>
    have hpath : pathTo (outer.take depth) = (pathTo outer).take depth := map_take
    have hlength : (pathTo outer).length = outer.length := length_map _
    rw [h.openStack, hpath]
    apply ext_getElem
    · rw [length_take, length_inits, length_inits, length_take]
      omega
    · intro index hleft hright
      rw [length_take] at hleft
      rw [getElem_take, getElem_inits, getElem_inits, take_take,
        Nat.min_eq_left (by omega)]

/-- An element is opened. -/
theorem openElement (h : Opens outer inner s) (child : Node) :
  Opens (outer ++ [inner]) child
    { s with
      root := build outer (inner.push child)
      openStack := s.openStack ++ [s.openStack.getLastD [] ++ [inner.children.length]] }
  := by
  constructor
  case root => exact (build_concat outer inner child).symm
  case openStack =>
    have hpath : pathTo (outer ++ [inner]) = pathTo outer ++ [inner.children.length] :=
      map_append
    rw [hpath, inits_append, getLastD_eq_getLast?, h.getLast?, h.openStack]
    rfl

/-- The element at a place of the stack. -/
theorem at_depth (h : Opens outer inner s) {depth : ℕ} (hdepth : depth ≤ outer.length) :
  ((s.openStack[depth]?).bind fun path => s.root.at? path) = some (build (outer.drop depth) inner)
  := by
  have hlength : (pathTo outer).length = outer.length := length_map _
  rw [h.openStack, getElem?_eq_getElem (by rw [length_inits]; omega),
    getElem_inits, Option.bind_some, h.root, at?_build outer inner depth hdepth]

/-- The search for an element to close finds one, or it ends at the root. -/
theorem openDepth (h : Opens outer inner s) (nsPrefix name : List UInt8) {depth : ℕ}
    (hpos : 0 < depth) (hdepth : depth ≤ outer.length + 1) :
  ∃ found, openDepth s nsPrefix name depth = some found ∧ 0 < found ∧ found ≤ depth
  := by
  induction depth with
  | zero => exact absurd hpos (lt_irrefl 0)
  | succ depth ih =>
    rw [Confluence.openDepth]
    by_cases hzero : depth = 0
    · rw [if_pos hzero]
      exact ⟨1, rfl, Nat.one_pos, by omega⟩
    · rw [if_neg hzero, h.at_depth (by omega), Option.bind_some]
      split
      case isTrue => exact ⟨depth + 1, rfl, Nat.succ_pos depth, le_rfl⟩
      case isFalse =>
        obtain ⟨found, hfound, hpos, hle⟩ := ih (by omega) (by omega)
        exact ⟨found, hfound, hpos, by omega⟩

/-- An end tag closes the innermost element if it has its name. -/
theorem openDepth_innermost (h : Opens outer inner s) (houter : outer ≠ []) :
  Confluence.openDepth s inner.nsPrefix inner.name s.openStack.length = some s.openStack.length
  := by
  have hpos := length_pos_iff.mpr houter
  rw [h.length, Confluence.openDepth, if_neg (by omega), h.at_depth le_rfl, Option.bind_some,
    drop_length]
  exact if_pos ⟨rfl, rfl⟩

end Opens

/-! ### Every input is read -/

/-- The stack points to open elements, the tree is bounded, and it has all texts that were made. -/
def Sound (s : State) : Prop :=
  (∃ outer inner, Opens outer inner s ∧ outer.length ≤ kMaxDepth) ∧
    s.root.height ≤ kMaxDepth + 1 ∧ s.root.texts = s.made

theorem sound_start :
  Sound {}
  := ⟨⟨[], _, ⟨rfl, rfl⟩, Nat.zero_le _⟩, by decide, rfl⟩

theorem Sound.warn (h : Sound s) (warning : Warning) :
  Sound (s.warn warning)
  := by
  obtain ⟨⟨outer, inner, hopens, hlength⟩, hheight, htexts⟩ := h
  exact ⟨⟨outer, inner, ⟨hopens.root, hopens.openStack⟩, hlength⟩, hheight, htexts⟩

theorem Sound.appendText (h : Sound s) (text : List UInt8) :
  ∃ s', s.appendText text = some s' ∧ Sound s'
  := by
  obtain ⟨⟨outer, inner, hopens, hlength⟩, hheight, htexts⟩ := h
  rw [hopens.root] at hheight htexts
  refine ⟨_, hopens.appendText text, ⟨outer, inner.push (.ofText text), ⟨rfl, hopens.openStack⟩,
    hlength⟩, ?_, ?_⟩
  · have hleaf : (Node.ofText text).height = 0 := rfl
    dsimp only
    rw [height_build_push, hleaf]
    omega
  · dsimp only
    rw [texts_build_push, htexts]
    rfl

theorem Sound.take (h : Sound s) {depth : ℕ} (hpos : 2 ≤ depth)
    (hdepth : depth ≤ s.openStack.length) :
  Sound { s with openStack := s.openStack.take (depth - 1) }
  := by
  obtain ⟨⟨outer, inner, hopens, hlength⟩, hheight, htexts⟩ := h
  rw [hopens.length] at hdepth
  have heq : depth - 1 = depth - 2 + 1 := by omega
  rw [heq]
  refine ⟨⟨_, _, hopens.take (by omega), ?_⟩, hheight, htexts⟩
  rw [length_take]
  omega

/-- What `closeElement` leaves, given how many elements stay open. -/
theorem Sound.closeElement (h : Sound s) (input : List UInt8) :
  ∃ s' rest, closeElement s input = some (s', rest) ∧ Sound s'
  := by
  obtain ⟨⟨outer, inner, hopens, hlength⟩, _⟩ := id h
  obtain ⟨depth, hdepth, hpos, hle⟩ := hopens.openDepth (readName (input.drop 2)).1.1
    (readName (input.drop 2)).1.2 (by rw [hopens.length]; omega) hopens.length.le
  rw [Confluence.closeElement, hdepth]
  simp only [Option.map_some]
  by_cases hone : depth = 1
  · rw [if_pos hone]
    exact ⟨_, _, rfl, h.warn _⟩
  · rw [if_neg hone]
    refine ⟨_, _, rfl, ?_⟩
    by_cases hall : depth ≠ s.openStack.length
    · simp only [if_pos hall]
      exact (h.warn _).take (by omega) hle
    · simp only [if_neg hall]
      exact h.take (by omega) hle

theorem warnOfTag_eq (s : State) (name : List UInt8) (tag : TagEnd) (flat : Bool) :
  (warnOfTag s name tag flat).root = s.root ∧
    (warnOfTag s name tag flat).openStack = s.openStack ∧
    (warnOfTag s name tag flat).made = s.made
  := by
  unfold warnOfTag
  dsimp only
  split_ifs <;> exact ⟨rfl, rfl, rfl⟩

theorem Opens.warnOfTag (h : Opens outer inner s) (name : List UInt8) (tag : TagEnd) (flat : Bool) :
  Opens outer inner (warnOfTag s name tag flat)
  := by
  obtain ⟨hroot, hstack, _⟩ := warnOfTag_eq s name tag flat
  exact ⟨hroot.trans h.root, hstack.trans h.openStack⟩

theorem Opens.parent (h : Opens outer inner s) :
  (s.openStack.getLast?.bind fun path => s.root.at? path) = some inner
  := by
  have hpath := at?_build outer inner outer.length le_rfl
  have hlength : (pathTo outer).length = outer.length := length_map _
  rw [drop_length, ← hlength, take_length] at hpath
  rw [h.getLast?, Option.bind_some, h.root, hpath]
  rfl

/-- An element that is closed at once. -/
theorem Opens.pushElement_closed (h : Opens outer inner s) (element : Node) :
  pushElement s element true = some { s with root := build outer (inner.push element) }
  := by
  rw [pushElement, h.parent, Option.bind_some, h.pushBack]
  rfl

/-- An element that is opened. -/
theorem Opens.pushElement_open (h : Opens outer inner s) (element : Node) :
  ∃ s', pushElement s element false = some s' ∧ Opens (outer ++ [inner]) element s' ∧
    s' = { s with root := s'.root, openStack := s'.openStack }
  := by
  rw [pushElement, h.parent, Option.bind_some, h.pushBack]
  exact ⟨_, rfl, h.openElement element, rfl⟩

/-- An element without children, opened or not, keeps the state sound. -/
theorem Sound.pushElement (h : Sound s) (nsPrefix name : List UInt8) (attributes : List Attribute)
    {closed : Bool} (hclosed : closed = true ∨ s.openStack.length ≤ kMaxDepth) :
  ∃ s', pushElement s (.element nsPrefix name attributes []) closed = some s' ∧ Sound s'
  := by
  obtain ⟨⟨outer, inner, hopens, hlength⟩, hheight, htexts⟩ := h
  have hlevel : (Node.element nsPrefix name attributes []).height = 0 := rfl
  have htext : (Node.element nsPrefix name attributes []).texts = [] := rfl
  have hheight' : (build outer (inner.push (.element nsPrefix name attributes []))).height ≤
      kMaxDepth + 1 := by
    rw [height_build_push, ← hopens.root, hlevel]
    omega
  have htexts' : (build outer (inner.push (.element nsPrefix name attributes []))).texts =
      s.made := by
    rw [texts_build_push, ← hopens.root, htexts, htext, append_nil]
  cases closed with
  | true =>
    exact ⟨_, hopens.pushElement_closed _, ⟨outer, _, ⟨rfl, hopens.openStack⟩, hlength⟩, hheight',
      htexts'⟩
  | false =>
    obtain ⟨s', heq, hopens', hs'⟩ := hopens.pushElement_open (.element nsPrefix name attributes [])
    have hroot := hopens'.root
    rw [build_concat] at hroot
    refine ⟨s', heq, ⟨_, _, hopens', ?_⟩, hroot ▸ hheight', ?_⟩
    · have hle := hclosed.resolve_left Bool.false_ne_true
      rw [hopens.length] at hle
      rwa [length_append, length_singleton]
    · rw [hroot, htexts', hs']

theorem Sound.readElement (h : Sound s) (input : List UInt8) :
  ∃ s' rest, readElement s input = some (s', rest) ∧ Sound s'
  := by
  unfold Confluence.readElement
  dsimp only
  by_cases hname : (readName (input.drop 1)).1.2 = []
  · rw [if_pos hname]
    obtain ⟨s', heq, hs'⟩ := h.appendText [0x3c]
    rw [heq]
    exact ⟨s', _, rfl, hs'⟩
  rw [if_neg hname]
  generalize readAttributes [] (readName (input.drop 1)).2 = tag
  generalize (tag.selfClosing || !tag.terminated ||
    isVoid (readName (input.drop 1)).1.1 (readName (input.drop 1)).1.2) = selfClosing
  have hwarned : ∀ flat, Sound (warnOfTag s (readName (input.drop 1)).1.2 tag flat) := by
    intro flat
    obtain ⟨hroot, hstack, hmade⟩ := warnOfTag_eq s (readName (input.drop 1)).1.2 tag flat
    obtain ⟨⟨outer, inner, hopens, hlength⟩, hheight, htexts⟩ := h
    exact ⟨⟨outer, inner, hopens.warnOfTag _ _ _, hlength⟩, hroot ▸ hheight,
      hroot ▸ hmade ▸ htexts⟩
  have hclosed : ∀ flat, flat = (!selfClosing && decide (kMaxDepth < s.openStack.length)) →
      (selfClosing || flat) = true ∨
        (warnOfTag s (readName (input.drop 1)).1.2 tag flat).openStack.length ≤ kMaxDepth := by
    rintro flat rfl
    rw [(warnOfTag_eq s _ tag _).2.1]
    by_cases hle : s.openStack.length ≤ kMaxDepth
    · exact Or.inr hle
    · left
      cases selfClosing
      · simpa using hle
      · rfl
  obtain ⟨s', heq, hs'⟩ := (hwarned _).pushElement (readName (input.drop 1)).1.1
    (readName (input.drop 1)).1.2 tag.attributes (hclosed _ rfl)
  rw [heq]
  exact ⟨s', _, rfl, hs'⟩

theorem Sound.readConstruct (h : Sound s) (input : List UInt8) :
  ∃ s' rest, readConstruct s input = some (s', rest) ∧ Sound s'
  := by
  unfold Confluence.readConstruct
  split_ifs
  · obtain ⟨s', heq, hs'⟩ := h.appendText (decodeEntities (input.takeWhile (· ≠ 0x3c)))
    rw [readTextRun, heq]
    exact ⟨s', _, rfl, hs'⟩
  · rw [skipComment]
    split
    case h_1 => exact ⟨_, _, rfl, h.warn _⟩
    case h_2 => exact ⟨_, _, rfl, h⟩
  · rw [readCdata]
    split
    case h_1 =>
      obtain ⟨s', heq, hs'⟩ := (h.warn .cdataUnclosed).appendText (input.drop 9)
      rw [heq]
      exact ⟨s', _, rfl, hs'⟩
    case h_2 before behind _ =>
      obtain ⟨s', heq, hs'⟩ := h.appendText before
      rw [heq]
      exact ⟨s', _, rfl, hs'⟩
  · exact ⟨_, _, rfl, h⟩
  · exact ⟨_, _, rfl, h⟩
  · exact h.closeElement input
  · exact h.readElement input

theorem Sound.parseFrom (h : Sound s) (input : List UInt8) :
  ∃ s', parseFrom s input = some s' ∧ Sound s'
  := by
  induction hlength : input.length using Nat.strong_induction_on generalizing s input with
  | _ length ih =>
    rw [Confluence.parseFrom]
    by_cases hinput : input = []
    · rw [dif_pos hinput]
      exact ⟨s, rfl, h⟩
    · rw [dif_neg hinput]
      obtain ⟨s', rest, hread, hs'⟩ := h.readConstruct input
      have hlt := length_readConstruct_lt hinput hread
      split
      case h_1 hnone => rw [hread] at hnone; cases hnone
      case h_2 s'' rest' hsome =>
        obtain ⟨rfl, rfl⟩ := Prod.mk.inj (Option.some.inj (hread.symm.trans hsome))
        exact ih _ (hlength ▸ hlt) hs' _ rfl

/-- Every input is read, every text node that is made is in the tree, and no node is deeper than one
below the deepest element that is opened. -/
theorem parse_total (input : List UInt8) :
  ∃ s, parse input = some s ∧ s.root.texts = s.made ∧ s.root.height ≤ kMaxDepth + 1
  := by
  obtain ⟨s, heq, hs⟩ := sound_start.parseFrom input
  rw [parse, heq, Option.map_some]
  split
  case isTrue =>
    obtain ⟨_, hheight, htexts⟩ := hs.warn (.stillOpen (s.openStack.length - 1))
    exact ⟨_, rfl, htexts, hheight⟩
  case isFalse => exact ⟨s, rfl, hs.2.2, hs.2.1⟩

end GRParse.Confluence
