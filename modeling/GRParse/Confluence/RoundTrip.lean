import GRParse.Confluence.StorageReading

/-!
# Trees and the storage format

A tree is written with references for the letters that are markup, with its void elements closed by
their only tags.  It is parsed to itself, unless one of its elements has a name that makes its
start tag a declaration or an instruction; and whatever the input is, it is parsed, every text that
is made is in the tree, and the tree is bounded.
-/

namespace GRParse.Confluence

open List

/-! ### Writing trees -/

def markupAttribute (attr : Attribute) : RawAttribute where
  space := [0x20]
  name := qualifiedName attr.nsPrefix attr.name
  before := []
  after := []
  quote := 0x22
  value := escapeEntities attr.value

def markupTag (nsPrefix name : List UInt8) (attributes : List Attribute) : Tag where
  name := qualifiedName nsPrefix name
  attributes := attributes.map markupAttribute
  space := []

namespace Node

mutual

/-- A node as a piece of a body. -/
def markup : Node → Item
  | mk textNode nsPrefix name text attributes children =>
    if textNode then .text (escapeEntities text)
    else if isVoid nsPrefix name then .empty (markupTag nsPrefix name attributes)
    else .element (markupTag nsPrefix name attributes) (markupAll children) []

def markupAll : List Node → List Item
  | [] => []
  | node :: nodes => node.markup :: markupAll nodes

end

/-- Trees as they are written. -/
def serialize (nodes : List Node) : List UInt8 :=
  Item.writeAll (markupAll nodes)

mutual

/-- How deep the elements of a tree are nested. -/
def depth : Node → ℕ
  | mk textNode _ _ _ _ children => if textNode then 0 else depths children + 1

def depths : List Node → ℕ
  | [] => 0
  | node :: nodes => max node.depth (depths nodes)

end

mutual

/-- The names of the elements of a tree. -/
def elementNames : Node → List (List UInt8)
  | mk textNode nsPrefix name _ _ children =>
    if textNode then [] else qualifiedName nsPrefix name :: elementNamesOf children

def elementNamesOf : List Node → List (List UInt8)
  | [] => []
  | node :: nodes => node.elementNames ++ elementNamesOf nodes

end

end Node

/-- A prefix and a name are in lower case and without separators, and the name is not empty. -/
structure PlainName (nsPrefix name : List UInt8) : Prop where
  separators : ∀ letter ∈ nsPrefix ++ name, ¬ isSeparator letter ∧ letter ≠ 0x3a
  lower : lowercase nsPrefix = nsPrefix ∧ lowercase name = name
  named : name ≠ []

/-- The start tag of a name is neither a declaration nor an instruction. -/
def StartsElement (name : List UInt8) : Prop :=
  name.head? ≠ some 0x21 ∧ name.head? ≠ some 0x3f

namespace Node

mutual

/-- A node is a text that is not empty, or an element that has plain names, that has no children if
it is void, and whose texts are not adjacent. -/
def Plain : Node → Prop
  | mk textNode nsPrefix name text attributes children =>
    if textNode then text ≠ [] ∧ nsPrefix = [] ∧ name = [] ∧ attributes = [] ∧ children = []
    else
      text = [] ∧ PlainName nsPrefix name ∧
        (∀ attr ∈ attributes, PlainName attr.nsPrefix attr.name) ∧
        (isVoid nsPrefix name → children = []) ∧ AllPlain children

def AllPlain : List Node → Prop
  | [] => True
  | node :: nodes =>
    node.Plain ∧ AllPlain nodes ∧ (node.textNode → ∀ next ∈ nodes.head?, ¬ next.textNode)

end

end Node

/-! ### Names -/

namespace PlainName

variable {nsPrefix name : List UInt8}

theorem splitName_qualifiedName (h : PlainName nsPrefix name) :
  splitName (qualifiedName nsPrefix name) = (nsPrefix, name)
  := by
  have hcolon : 0x3a ∉ nsPrefix ∧ 0x3a ∉ name := by
    constructor
    all_goals
      intro hmem
    · exact (h.separators _ (mem_append_left _ hmem)).2 rfl
    · exact (h.separators _ (mem_append_right _ hmem)).2 rfl
  obtain ⟨hspaceName, hname⟩ := h.lower
  rw [qualifiedName]
  split
  case isTrue hempty =>
    rw [splitName, if_neg hcolon.2, hname, hempty]
  case isFalse =>
    have htaken : ∀ letter ∈ nsPrefix, decide (letter ≠ 0x3a) := by
      intro letter hletter
      apply decide_eq_true
      rintro rfl
      exact hcolon.1 hletter
    have hstop : StopsAt (fun letter => decide (letter ≠ 0x3a)) (0x3a :: name) := by simp [StopsAt]
    obtain ⟨htake, hdrop⟩ := scan_append htaken hstop
    rw [append_assoc, singleton_append, splitName, if_pos (by simp), htake, hdrop,
      hspaceName, drop_succ_cons, drop_zero, hname]

theorem separators_qualifiedName (h : PlainName nsPrefix name) :
  ∀ letter ∈ qualifiedName nsPrefix name, ¬ isSeparator letter
  := by
  intro letter hletter
  rw [qualifiedName] at hletter
  split at hletter
  case isTrue => exact (h.separators letter (mem_append_right _ hletter)).1
  case isFalse =>
    rw [append_assoc, singleton_append, mem_append, mem_cons] at hletter
    rcases hletter with hmem | rfl | hmem
    · exact (h.separators letter (mem_append_left _ hmem)).1
    · decide
    · exact (h.separators letter (mem_append_right _ hmem)).1

end PlainName

theorem read_markupAttribute {attr : Attribute} (h : PlainName attr.nsPrefix attr.name) :
  (markupAttribute attr).read = attr
  := by
  rw [RawAttribute.read, markupAttribute, h.splitName_qualifiedName, decodeEntities_escapeEntities]

theorem valid_markupAttribute {attr : Attribute} (h : PlainName attr.nsPrefix attr.name) :
  (markupAttribute attr).Valid
  where
  space := ⟨List.cons_ne_nil _ _, by simp [markupAttribute, isSpace]⟩
  name := h.separators_qualifiedName
  named := by
    rw [markupAttribute, h.splitName_qualifiedName]
    exact fun heq => h.named (congrArg Prod.snd heq)
  before := nofun
  after := nofun
  quote := Or.inl rfl
  value := (markup_notMem_escapeEntities _).2

section

variable {nsPrefix name : List UInt8} {attributes : List Attribute}

theorem read_markupTag (h : PlainName nsPrefix name)
    (hattributes : ∀ attr ∈ attributes, PlainName attr.nsPrefix attr.name) (children : List Node) :
  (markupTag nsPrefix name attributes).read children = .element nsPrefix name attributes children
  := by
  have hread : (attributes.map markupAttribute).map RawAttribute.read = attributes := by
    rw [map_map]
    exact (map_congr_left fun attr hmem =>
      read_markupAttribute (hattributes attr hmem)).trans (map_id attributes)
  rw [Tag.read, markupTag, h.splitName_qualifiedName, hread]

theorem isVoid_markupTag (h : PlainName nsPrefix name) :
  (markupTag nsPrefix name attributes).isVoid = isVoid nsPrefix name
  := by
  rw [Tag.isVoid, markupTag, h.splitName_qualifiedName]

theorem valid_markupTag (h : PlainName nsPrefix name)
    (hstarts : StartsElement (qualifiedName nsPrefix name))
    (hattributes : ∀ attr ∈ attributes, PlainName attr.nsPrefix attr.name) :
  (markupTag nsPrefix name attributes).Valid
  where
  name := h.separators_qualifiedName
  named := by
    rw [markupTag, h.splitName_qualifiedName]
    exact h.named
  opens := hstarts
  attributes := by
    intro raw hraw
    obtain ⟨attr, hmem, rfl⟩ := List.mem_map.mp hraw
    exact valid_markupAttribute (hattributes attr hmem)
  space := nofun

end

/-! ### Trees -/

open Node

theorem isText_markup (node : Node) :
  node.markup.isText = node.textNode
  := by
  cases node with
  | mk textNode nsPrefix name text attributes children =>
    rw [markup]
    split_ifs with htext
    · exact htext.symm
    · exact (Bool.eq_false_of_not_eq_true htext).symm
    · exact (Bool.eq_false_of_not_eq_true htext).symm

mutual

/-- The markup of a plain tree is well-formed, and it says what the tree is. -/
theorem markup_of_plain : ∀ node : Node, node.Plain →
    (∀ name ∈ node.elementNames, StartsElement name) →
    node.markup.Valid ∧ node.markup.NoVoidEnd ∧ node.markup.nodes = [node] ∧
      node.markup.closingDepth ≤ node.depth
  | mk textNode nsPrefix name text attributes children, hplain, hstarts => by
    rw [Plain] at hplain
    rw [elementNames] at hstarts
    rw [markup, Node.depth]
    split_ifs at hplain hstarts ⊢ with htext hvoid
    · obtain ⟨hne, rfl, rfl, rfl, rfl⟩ := hplain
      simp only [Item.Valid, Item.NoVoidEnd, Item.nodes, Item.closingDepth,
        decodeEntities_escapeEntities, htext]
      exact ⟨⟨escapeEntities_ne_nil hne, (markup_notMem_escapeEntities text).1⟩, trivial, rfl, le_rfl⟩
    · obtain ⟨rfl, hname, hattributes, hchildren, _⟩ := hplain
      simp only [Item.Valid, Item.NoVoidEnd, Item.nodes, Item.closingDepth, hchildren hvoid,
        read_markupTag hname hattributes, Bool.eq_false_of_not_eq_true htext]
      exact ⟨valid_markupTag hname (hstarts _ List.mem_cons_self) hattributes, trivial, rfl,
        Nat.zero_le _⟩
    · obtain ⟨rfl, hname, hattributes, _, hchildren⟩ := hplain
      obtain ⟨hvalid, hvoids, hnodes, hdepth⟩ := markupAll_of_plain children hchildren
        fun name hmem => hstarts name (List.mem_cons_of_mem _ hmem)
      rw [Item.Valid, Item.NoVoidEnd, Item.nodes, Item.closingDepth, hnodes,
        read_markupTag hname hattributes, isVoid_markupTag hname, Bool.eq_false_of_not_eq_true htext]
      exact ⟨⟨valid_markupTag hname (hstarts _ List.mem_cons_self) hattributes, hvalid, nofun⟩,
        ⟨hvoid, hvoids⟩, rfl, Nat.succ_le_succ hdepth⟩

theorem markupAll_of_plain : ∀ nodes : List Node, AllPlain nodes →
    (∀ name ∈ elementNamesOf nodes, StartsElement name) →
    Item.AllValid (markupAll nodes) ∧ Item.AllNoVoidEnd (markupAll nodes) ∧
      Item.allNodes (markupAll nodes) = nodes ∧
      Item.closingDepths (markupAll nodes) ≤ depths nodes
  | [], _, _ => ⟨trivial, trivial, rfl, le_rfl⟩
  | node :: nodes, hplain, hstarts => by
    rw [AllPlain] at hplain
    rw [elementNamesOf] at hstarts
    obtain ⟨hnode, hnodes, hnext⟩ := hplain
    obtain ⟨hvalid, hvoid, hread, hdepth⟩ := markup_of_plain node hnode
      fun name hmem => hstarts name (List.mem_append_left _ hmem)
    obtain ⟨hvalids, hvoids, hreads, hdepths⟩ := markupAll_of_plain nodes hnodes
      fun name hmem => hstarts name (List.mem_append_right _ hmem)
    rw [markupAll, Item.AllValid, Item.AllNoVoidEnd, Item.allNodes, Item.closingDepths, depths,
      hread, hreads]
    refine ⟨⟨hvalid, hvalids, ?_⟩, ⟨hvoid, hvoids⟩, rfl, by omega⟩
    intro htext next hhead
    rw [isText_markup] at htext
    cases nodes with
    | nil => cases hhead
    | cons other nodes =>
      obtain rfl := Option.some.inj hhead
      rw [isText_markup]
      exact hnext htext other rfl

end

/-- Plain trees that are written are parsed to themselves, and every input is parsed to a tree that
is bounded and that has every text node that the parser makes. -/
theorem storageFormat_roundTrips (nodes : List Node) (hplain : AllPlain nodes)
    (hstarts : ∀ name ∈ elementNamesOf nodes, StartsElement name)
    (hdepth : depths nodes ≤ kMaxDepth) (input : List UInt8) :
  (∃ s, parse (serialize nodes) = some s ∧ s.root.children = nodes ∧ s.warnings = []) ∧
  ∃ s, parse input = some s ∧ s.root.texts = s.made ∧ s.root.height ≤ kMaxDepth + 1
  := by
  obtain ⟨hvalid, hvoid, hnodes, hle⟩ := markupAll_of_plain nodes hplain hstarts
  obtain ⟨s, hparse, hroot, hwarnings⟩ := parse_writeAll hvalid hvoid (hle.trans hdepth)
  rw [hnodes] at hroot
  exact ⟨⟨s, hparse, hroot, hwarnings⟩, parse_total input⟩

/-- A paragraph with an attribute and a text that are markup, and a line break. -/
theorem storageFormat_roundTrips_paragraph :
  ∃ s, parse (serialize [.element [] [0x70] [⟨[0x61], [0x62], [0x22]⟩]
      [.element [] [0x62, 0x72] [] [], .ofText [0x3c]]]) = some s ∧
    s.root.children = [.element [] [0x70] [⟨[0x61], [0x62], [0x22]⟩]
      [.element [] [0x62, 0x72] [] [], .ofText [0x3c]]] ∧ s.warnings = []
  := by
  have hp : PlainName [] [0x70] := ⟨by simp [isSeparator, isSpace], ⟨rfl, rfl⟩, by simp⟩
  have hab : PlainName [0x61] [0x62] := ⟨by simp [isSeparator, isSpace], ⟨rfl, rfl⟩, by simp⟩
  have hbr : PlainName [] [0x62, 0x72] := ⟨by simp [isSeparator, isSpace], ⟨rfl, rfl⟩, by simp⟩
  have hplain : AllPlain [.element [] [0x70] [⟨[0x61], [0x62], [0x22]⟩]
      [.element [] [0x62, 0x72] [] [], .ofText [0x3c]]] := by
    simp [AllPlain, Plain, Node.element, Node.ofText, Node.textNode, hp, hab, hbr, isVoid, kVoid]
  have hstarts : ∀ name ∈ elementNamesOf [.element [] [0x70] [⟨[0x61], [0x62], [0x22]⟩]
      [.element [] [0x62, 0x72] [] [], .ofText [0x3c]]], StartsElement name := by
    simp [elementNamesOf, elementNames, Node.element, Node.ofText, StartsElement, qualifiedName]
  exact (storageFormat_roundTrips _ hplain hstarts (by decide) []).1

/-- An element whose name begins with an exclamation mark is read as a declaration, and its end tag
closes nothing. -/
theorem storageFormat_declaration :
  AllPlain [.element [] [0x21] [] []] ∧ depths [.element [] [0x21] [] []] ≤ kMaxDepth ∧
    ∃ s, parse (serialize [.element [] [0x21] [] []]) = some s ∧
      s.root.children = [] ∧ s.warnings = [.closesNothing [] [0x21]]
  := by
  have hname : PlainName [] [0x21] := ⟨by simp [isSeparator, isSpace], ⟨rfl, rfl⟩, by simp⟩
  have hinput : serialize [.element [] [0x21] [] []] =
      [0x3c, 0x21, 0x3e, 0x3c, 0x2f, 0x21, 0x3e] := rfl
  have hdeclaration : readConstruct {} [0x3c, 0x21, 0x3e, 0x3c, 0x2f, 0x21, 0x3e] =
      some ({}, [0x3c, 0x2f, 0x21, 0x3e]) := rfl
  have hend : readConstruct {} [0x3c, 0x2f, 0x21, 0x3e] =
      some (State.warn {} (.closesNothing [] [0x21]), []) := rfl
  refine ⟨?_, by decide, State.warn {} (.closesNothing [] [0x21]), ?_, rfl, rfl⟩
  · simp [AllPlain, Plain, Node.element, Node.textNode, hname]
  · rw [hinput, parse, parseFrom_step (List.cons_ne_nil _ _) hdeclaration,
      parseFrom_step (List.cons_ne_nil _ _) hend, parseFrom, dif_pos rfl]
    rfl

end GRParse.Confluence
