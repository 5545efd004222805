import GRParse.Document.References
import Mathlib.Data.List.DropRight

/-!
# Additive merges

`merge_documents` appends the items of one document to the arenas of another and renumbers
the references of the first accordingly; everything else is merged field by field, where the
target keeps what it says.  Here a document is all of its fields: its eight arenas, and the
record of the others, of which we spell out the two trees.
-/

namespace GRParse.Merging

open Containers Protobuf List

/-! ### Documents -/

/-- The arenas of a document, in the order the merge goes through them. -/
inductive Arena where
  | groups
  | texts
  | pictures
  | tables
  | keyValueItems
  | formItems
  | fieldRegions
  | fieldItems
  deriving DecidableEq

def Arena.all : List Arena :=
  [groups, texts, pictures, tables, keyValueItems, formItems, fieldRegions, fieldItems]

theorem Arena.mem_all (arena : Arena) :
  arena ∈ all
  := by
  cases arena <;> decide

/-- What the references to the items of an arena start with. -/
def Arena.start : Arena → String
  | groups => kGroups
  | texts => kTexts
  | pictures => kPictures
  | tables => kTables
  | keyValueItems => "#/key_value_items/"
  | formItems => "#/form_items/"
  | fieldRegions => "#/field_regions/"
  | fieldItems => "#/field_items/"

/-- The fields of a group, the children spelled out. -/
def groupItem (groupRest : Descriptor) : Descriptor :=
  .single "self_ref" <| .message "parent" (.single "ref" .done) <| .repeated "children" groupRest

/-- The fields of a document that are not arenas, the trees and the pages spelled out. -/
def documentFields (groupRest rest : Descriptor) : Descriptor :=
  .message "furniture" (groupItem groupRest) <| .message "body" (groupItem groupRest) <|
    .map "pages" rest

/-- A document. -/
structure Document (groupRest rest : Descriptor) where
  arena : Arena → List Message
  fields : Record (documentFields groupRest rest)

variable {groupRest rest : Descriptor}

/-- The children of a root that may not be set. -/
def childrenOf (root : Option (Record (groupItem groupRest))) : List Message :=
  root.elim [] fun group => group.2.2.1

def Document.body (document : Document groupRest rest) : List Message :=
  childrenOf document.fields.2.1

def Document.furniture (document : Document groupRest rest) : List Message :=
  childrenOf document.fields.1

/-! ### The merge -/

/-- `item_self_ref`: text items keep their reference inside the base of their variant, but a
code item has no base. -/
def itemSelfRef : Message → String
  | .message field variant _ =>
    if field = "code" then variant.getString "self_ref"
    else (variant.getMessage "base").elim "" (·.getString "self_ref")
  | _ => ""

def selfRef : Arena → Message → String
  | .texts => itemSelfRef
  | _ => (·.getString "self_ref")

/-- `map_arena`: the items of the source go behind those of the target. -/
def mapArena (source target : Document groupRest rest) (mapping : RefMap) (arena : Arena) :
    RefMap :=
  (source.arena arena).zipIdx.foldl (fun mapping (item, index) =>
    let oldRef := selfRef arena item
    let oldRef := if oldRef = "" then slotRef arena.start index else oldRef
    mapping.insert oldRef (slotRef arena.start ((target.arena arena).length + index))) mapping

/-- The renumbering of the source. -/
def renumbering (source target : Document groupRest rest) : RefMap :=
  Arena.all.foldl (mapArena source target) ∅

/-- `rewrite_refs` on a document. -/
def rewriteRefs (mapping : RefMap) (document : Document groupRest rest) :
    Document groupRest rest where
  arena arena := (document.arena arena).map (·.mapStrings isReference mapping.rename)
  fields := document.fields.mapStrings isReference mapping.rename

/-- `merge_documents`, without a claimant. -/
def mergeDocuments (source target : Document groupRest rest) : Document groupRest rest :=
  let source := rewriteRefs (renumbering source target) source
  { arena arena := target.arena arena ++ source.arena arena
    fields := source.fields.merge _ target.fields }

/-! ### The renumbering -/

/-- Every item carries the reference to its slot. -/
def Positional (document : Document groupRest rest) : Prop :=
  ∀ arena index item, (document.arena arena)[index]? = some item →
    selfRef arena item = slotRef arena.start index

theorem slotRef_ne_empty (arena : Arena) (index : ℕ) :
  slotRef arena.start index ≠ ""
  := by
  intro h
  have hlist := congrArg String.toList h
  rw [slotRef_toList] at hlist
  cases arena <;> simp [Arena.start, kGroups, kTexts, kPictures, kTables] at hlist

/-- The prefix of a slot reference is found again behind its last digit. -/
theorem slotRef_inj {arena arena' : Arena} {index index' : ℕ}
    (h : slotRef arena.start index = slotRef arena'.start index') :
  arena = arena' ∧ index = index'
  := by
  have hstart : ∀ (arena : Arena) index,
      (slotRef arena.start index).toList.rdropWhile Char.isDigit = arena.start.toList := by
    intro arena index
    rw [slotRef_toList, rdropWhile, reverse_append, dropWhile_append_of_pos]
    · cases arena <;> decide +kernel
    · intro digit hdigit
      exact Nat.isDigit_of_mem_toDigits (by decide) (by decide) (mem_reverse.mp hdigit)
  have hsame : arena.start.toList = arena'.start.toList := by
    rw [← hstart arena index, ← hstart arena' index', h]
  have harena : arena = arena' := by
    cases arena <;> cases arena' <;> first | rfl | exact absurd hsame (by decide +kernel)
  subst harena
  exact ⟨rfl, slotRef_injective _ h⟩

/-- The entries of the renumbering for the items of an arena. -/
def renumbered (source target : Document groupRest rest) (arena : Arena) :
    List (String × String) :=
  (source.arena arena).zipIdx.map fun (item, index) =>
    let oldRef := selfRef arena item
    (if oldRef = "" then slotRef arena.start index else oldRef,
      slotRef arena.start ((target.arena arena).length + index))

theorem renumbering_eq_insertAll (source target : Document groupRest rest) :
  renumbering source target = Map.insertAll (Arena.all.flatMap (renumbered source target)) ∅
  := by
  simp only [renumbering, mapArena, Map.insertAll, Arena.all, flatMap_cons,
    flatMap_nil, append_nil, foldl_append, foldl_cons, foldl_nil,
    renumbered, foldl_map]

variable {source : Document groupRest rest}

/-- The entries are those of the slots. -/
theorem mem_renumbered (hsource : Positional source) (target : Document groupRest rest)
    {entry : String × String} :
  entry ∈ Arena.all.flatMap (renumbered source target) ↔
    ∃ arena, ∃ index < (source.arena arena).length,
      entry = (slotRef arena.start index,
        slotRef arena.start ((target.arena arena).length + index))
  := by
  rw [List.mem_flatMap]
  constructor
  · rintro ⟨arena, -, hentry⟩
    obtain ⟨⟨item, index⟩, hmem, rfl⟩ := List.mem_map.mp hentry
    obtain ⟨hindex, hitem⟩ := List.mk_mem_zipIdx_iff_getElem?.mp hmem |> fun h =>
      List.getElem?_eq_some_iff.mp h
    have hself := hsource arena index item (List.getElem?_eq_some_iff.mpr ⟨hindex, hitem⟩)
    refine ⟨arena, index, hindex, ?_⟩
    simp only [hself, if_neg (slotRef_ne_empty arena index)]
  · rintro ⟨arena, index, hindex, rfl⟩
    refine ⟨arena, arena.mem_all, List.mem_map.mpr ⟨((source.arena arena)[index], index),
      List.mk_mem_zipIdx_iff_getElem?.mpr (List.getElem?_eq_getElem hindex), ?_⟩⟩
    have hself := hsource arena index _ (List.getElem?_eq_getElem hindex)
    simp only [hself, if_neg (slotRef_ne_empty arena index)]

/-- A reference to an item of the source becomes the reference to its new slot. -/
theorem rename_slotRef (hsource : Positional source) (target : Document groupRest rest)
    (arena : Arena) {index : ℕ} (hindex : index < (source.arena arena).length) :
  (renumbering source target).rename (slotRef arena.start index) =
    slotRef arena.start ((target.arena arena).length + index)
  := by
  rw [RefMap.rename, renumbering_eq_insertAll, Option.getD_eq_iff]
  left
  apply Map.lookup_insertAll_of_mem
  · exact (mem_renumbered hsource target).mpr ⟨arena, index, hindex, rfl⟩
  · rintro ⟨key, value⟩ hentry rfl
    obtain ⟨arena', index', -, heq⟩ := (mem_renumbered hsource target).mp hentry
    obtain ⟨hkey, rfl⟩ := Prod.mk.inj heq
    obtain ⟨rfl, rfl⟩ := slotRef_inj hkey
    rfl

/-- A reference to anything else stays. -/
theorem rename_other (hsource : Positional source) (target : Document groupRest rest)
    {ref : String}
    (h : ∀ arena, ∀ index < (source.arena arena).length, ref ≠ slotRef arena.start index) :
  (renumbering source target).rename ref = ref
  := by
  rw [RefMap.rename, renumbering_eq_insertAll, Map.lookup_insertAll_of_notMem]
  · rfl
  · rintro ⟨key, value⟩ hentry rfl
    obtain ⟨arena, index, hindex, heq⟩ := (mem_renumbered hsource target).mp hentry
    exact h arena index hindex (Prod.mk.inj heq).1

/-! ### The merged document -/

theorem itemSelfRef_mapStrings (f : String → String) {item : Message} (h : itemSelfRef item ≠ "") :
  itemSelfRef (item.mapStrings isReference f) = f (itemSelfRef item)
  := by
  cases item with
  | message field variant rest =>
    rw [itemSelfRef] at h
    rw [Message.mapStrings, itemSelfRef, itemSelfRef]
    split
    next hcode => exact Message.getString_mapStrings f (by decide) (by rwa [if_pos hcode] at h)
    next hcode =>
      rw [if_neg hcode] at h
      rw [Message.getMessage_mapStrings]
      cases hbase : variant.getMessage "base" with
      | none => exact absurd (by rw [hbase]; rfl) h
      | some base =>
        rw [hbase] at h
        exact Message.getString_mapStrings f (by decide) h
  | _ => exact absurd rfl h

theorem selfRef_mapStrings (f : String → String) {arena : Arena} {item : Message}
    (h : selfRef arena item ≠ "") :
  selfRef arena (item.mapStrings isReference f) = f (selfRef arena item)
  := by
  cases arena with
  | texts => exact itemSelfRef_mapStrings f h
  | _ => exact Message.getString_mapStrings f (by decide) h

/-- The children of a root that was merged. -/
theorem childrenOf_merge (f : String → String)
    (source target : Option (Record (groupItem groupRest))) :
  childrenOf (Option.merge (Record.merge _) (source.map (Record.mapStrings isReference f _))
      target) =
    childrenOf target ++ (childrenOf source).map (·.mapStrings isReference f)
  := by
  cases source with
  | none => cases target <;> simp [childrenOf]
  | some source => cases target <;> rfl

/-- The target's arenas are followed by the source's items, in which `shift` took each reference
to an item of the source to its new slot, and no other; and so it did in the children of the
source's roots, which follow those of the target.  All that the target said in its other fields
it still says. -/
structure Merged (source target merged : Document groupRest rest) (shift : String → String) :
    Prop where
  arenas : ∀ arena, merged.arena arena =
    target.arena arena ++ (source.arena arena).map (·.mapStrings isReference shift)
  references : ∀ item : Message,
    (item.mapStrings isReference shift).strings isReference = (item.strings isReference).map shift
  selfRefs : ∀ arena, ∀ index < (source.arena arena).length, ∃ item,
    (merged.arena arena)[(target.arena arena).length + index]? = some item ∧
      selfRef arena item = slotRef arena.start ((target.arena arena).length + index)
  named : ∀ arena, ∀ index < (source.arena arena).length,
    shift (slotRef arena.start index) = slotRef arena.start ((target.arena arena).length + index)
  others : ∀ ref, (∀ arena, ∀ index < (source.arena arena).length,
    ref ≠ slotRef arena.start index) → shift ref = ref
  roots : shift "#/body" = "#/body" ∧ shift "#/furniture" = "#/furniture"
  body : merged.body = target.body ++ source.body.map (·.mapStrings isReference shift)
  furniture :
    merged.furniture = target.furniture ++ source.furniture.map (·.mapStrings isReference shift)
  fields : target.fields.Extends _ merged.fields

theorem merged_mergeDocuments {source : Document groupRest rest} (hsource : Positional source)
    (target : Document groupRest rest) :
  Merged source target (mergeDocuments source target) (renumbering source target).rename
  := by
  have hnamed : ∀ arena, ∀ index < (source.arena arena).length, _ :=
    fun arena _ hindex => rename_slotRef hsource target arena hindex
  have hothers : ∀ ref, _ → (renumbering source target).rename ref = ref :=
    fun _ href => rename_other hsource target href
  constructor
  case arenas => exact fun _ => rfl
  case references => exact fun item => item.strings_mapStrings isReference _
  case selfRefs =>
    intro arena index hindex
    have hself := hsource arena index _ (List.getElem?_eq_getElem hindex)
    refine ⟨(source.arena arena)[index].mapStrings isReference
      (renumbering source target).rename, ?_, ?_⟩
    · simp [mergeDocuments, rewriteRefs, hindex]
    · rw [selfRef_mapStrings _ (by rw [hself]; exact slotRef_ne_empty arena index), hself,
        hnamed arena index hindex]
  case named => exact hnamed
  case others => exact hothers
  case roots =>
    constructor <;> apply hothers <;> intro arena index _ h
    all_goals
      have hlist := congrArg String.toList h
      rw [slotRef_toList] at hlist
      cases arena <;> simp [Arena.start, kGroups, kTexts, kPictures, kTables] at hlist
  case body => exact childrenOf_merge _ source.fields.2.1 target.fields.2.1
  case furniture => exact childrenOf_merge _ source.fields.1 target.fields.1
  case fields =>
    exact Record.extends_merge _ (rewriteRefs (renumbering source target) source).fields
      target.fields

/-- A document with one text, listed in its body. -/
def oneText : Document .done .done where
  arena
    | .texts => [.message "text" (.message "base" (.string "self_ref" "#/texts/0" .done) .done) .done]
    | _ => []
  fields := (none, some (some (.string "self_ref" "#/body" .done), none,
    [.string "ref" "#/texts/0" .done], ()), [], ())

theorem merged_oneText_oneText :
  Merged oneText oneText (mergeDocuments oneText oneText) (renumbering oneText oneText).rename
  := by
  apply merged_mergeDocuments
  intro arena index item hitem
  cases arena with
  | texts =>
    obtain ⟨hindex, rfl⟩ := List.getElem?_eq_some_iff.mp hitem
    obtain rfl : index = 0 := Nat.lt_one_iff.mp hindex
    rfl
  | _ => cases hitem

end GRParse.Merging
