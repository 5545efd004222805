import GRParse.Document.Basic

/-!
# References

An item is referred to by the arena and the index of its slot, as in `#/texts/3`.
`arenaIndex` reads such a reference and `slotRef` writes it.  `rewriteReferences` is the walk
over a document that renames the references it carries, `self_ref` included.
-/

namespace GRParse

open Containers Protobuf

/-! ### The index in a reference -/

/-- `INT_MAX`. -/
def intMax : ℤ := 2147483647

/-- The number a text of digits writes. -/
def ofDigits (digits : List Char) : Option ℕ :=
  if digits.isEmpty || !digits.all Char.isDigit then none
  else some (Nat.ofDigitChars 10 digits 0)

/-- A number that an `int` can hold. -/
def asInt (value : ℤ) : Option ℤ :=
  if -intMax - 1 ≤ value ∧ value ≤ intMax then some value else none

/-- `std::from_chars` for an `int`, when it is to read all of the text. -/
def fromChars : List Char → Option ℤ
  | '-' :: digits => (ofDigits digits).bind fun magnitude => asInt (-magnitude)
  | digits => (ofDigits digits).bind fun magnitude => asInt magnitude

/-- `arena_index`: the slot a reference names in the arena with the given prefix. -/
def arenaIndex (ref start : String) : Option ℕ :=
  if start.toList.isPrefixOf ref.toList then
    match fromChars (ref.toList.drop start.toList.length) with
    | some index => if index < 0 then none else some index.toNat
    | none => none
  else none

def kTexts : String := "#/texts/"

def kTables : String := "#/tables/"

def kPictures : String := "#/pictures/"

def kGroups : String := "#/groups/"

/-- The reference to a slot of the arena with the given prefix. -/
def slotRef (start : String) (index : ℕ) : String :=
  start ++ toString index

@[simp]
theorem slotRef_toList (start : String) (index : ℕ) :
  (slotRef start index).toList = start.toList ++ Nat.toDigits 10 index
  := by
  simp [slotRef, String.toList_append]

theorem ofDigits_toDigits (index : ℕ) :
  ofDigits (Nat.toDigits 10 index) = some index
  := by
  have digits : (Nat.toDigits 10 index).all Char.isDigit = true :=
    List.all_eq_true.mpr fun c hc => Nat.isDigit_of_mem_toDigits (by decide) (by decide) hc
  simp [ofDigits, digits, Nat.toDigits_ne_nil]

theorem asInt_natCast {index : ℕ} (fits : (index : ℤ) ≤ intMax) :
  asInt index = some (index : ℤ)
  := by
  have low : -intMax - 1 ≤ (index : ℤ) := by
    unfold intMax
    omega
  rw [asInt, if_pos ⟨low, fits⟩]

/-- What a number is written as is read back. -/
theorem fromChars_toDigits {index : ℕ} (fits : (index : ℤ) ≤ intMax) :
  fromChars (Nat.toDigits 10 index) = some (index : ℤ)
  := by
  have unsigned : ∀ digits, Nat.toDigits 10 index ≠ '-' :: digits := by
    intro digits h
    have sign : '-' ∈ Nat.toDigits 10 index := h ▸ List.mem_cons_self
    have := Nat.isDigit_of_mem_toDigits (by decide) (by decide) sign
    exact absurd this (by decide)
  rw [fromChars]
  · rw [ofDigits_toDigits, Option.bind_some, asInt_natCast fits]
  · exact unsigned

/-- A reference to a slot of an arena that fits names that slot. -/
theorem arenaIndex_slotRef (start : String) {index : ℕ} (fits : (index : ℤ) ≤ intMax) :
  arenaIndex (slotRef start index) start = some index
  := by
  rw [arenaIndex, slotRef_toList, List.drop_left, fromChars_toDigits fits]
  simp

/-- References to different slots are different. -/
theorem slotRef_injective (start : String) :
  Function.Injective (slotRef start)
  := by
  intro i j h
  have digits : Nat.toDigits 10 i = Nat.toDigits 10 j := by
    have := congrArg String.toList h
    simpa using this
  rw [← Nat.ofDigitChars_ten_toDigits (n := i), digits, Nat.ofDigitChars_ten_toDigits]

/-! ### Renaming -/

/-- A renaming of references. -/
abbrev RefMap := Map String String

/-- Where the mapping takes a reference: to itself unless it is listed. -/
def RefMap.rename (mapping : RefMap) (ref : String) : String :=
  (mapping.lookup ref).getD ref

/-- The names of the string fields that hold references. -/
def isReference (field : String) : Bool :=
  field == "ref" || field == "self_ref" || field == "item_ref"

/-- `rewrite_refs` on the fields that are not spelled out. -/
def rewriteRest (mapping : RefMap) (rest : Message) : Message :=
  rest.mapStrings isReference mapping.rename

def RefItem.rewriteRefs (mapping : RefMap) (item : RefItem) : RefItem where
  ref := mapping.rename item.ref

def ProvenanceItem.rewriteRefs (mapping : RefMap) (prov : ProvenanceItem) : ProvenanceItem :=
  { prov with rest := rewriteRest mapping prov.rest }

def NodeItem.rewriteRefs (mapping : RefMap) (item : NodeItem) : NodeItem where
  selfRef := mapping.rename item.selfRef
  parent := item.parent.map (RefItem.rewriteRefs mapping)
  children := item.children.map (RefItem.rewriteRefs mapping)
  rest := rewriteRest mapping item.rest

def DocItem.rewriteRefs (mapping : RefMap) (item : DocItem) : DocItem where
  toNodeItem := item.toNodeItem.rewriteRefs mapping
  prov := item.prov.map (ProvenanceItem.rewriteRefs mapping)
  contentLayer := item.contentLayer

def TextItemBase.rewriteRefs (mapping : RefMap) (base : TextItemBase) : TextItemBase where
  toDocItem := base.toDocItem.rewriteRefs mapping
  text := base.text

/-- A base that is not set is not walked. -/
def BaseTextItem.rewriteRefs (mapping : RefMap) : BaseTextItem → BaseTextItem
  | .notSet => .notSet
  | .based kind base rest =>
    .based kind (base.map (TextItemBase.rewriteRefs mapping)) (rewriteRest mapping rest)
  | .code item => .code (item.rewriteRefs mapping)

def TableItem.rewriteRefs (mapping : RefMap) (table : TableItem) : TableItem where
  toDocItem := table.toDocItem.rewriteRefs mapping

def PictureItem.rewriteRefs (mapping : RefMap) (picture : PictureItem) : PictureItem where
  toDocItem := picture.toDocItem.rewriteRefs mapping

def GroupItem.rewriteRefs (mapping : RefMap) (group : GroupItem) : GroupItem where
  toNodeItem := group.toNodeItem.rewriteRefs mapping

def PageItem.rewriteRefs (mapping : RefMap) (page : PageItem) : PageItem :=
  { page with rest := rewriteRest mapping page.rest }

/-- `rewrite_references`. -/
def Document.rewriteReferences (mapping : RefMap) (document : Document) : Document where
  body := document.body.map (GroupItem.rewriteRefs mapping)
  furniture := document.furniture.map (GroupItem.rewriteRefs mapping)
  groups := document.groups.map (GroupItem.rewriteRefs mapping)
  texts := document.texts.map (BaseTextItem.rewriteRefs mapping)
  pictures := document.pictures.map (PictureItem.rewriteRefs mapping)
  tables := document.tables.map (TableItem.rewriteRefs mapping)
  pages := document.pages.mapValues (PageItem.rewriteRefs mapping)
  rest := rewriteRest mapping document.rest

end GRParse
