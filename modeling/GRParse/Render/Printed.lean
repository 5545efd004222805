import GRParse.Render.MapFields
import GRParse.Render.SameValue

/-!
# Printed messages

What the printer writes for a message of a schema, in which the objects written for maps are told
from those written for messages.  A map field stands under its name; the fields of a `Struct` are
a map that the printer writes without a name.
-/

namespace GRParse.Render

open Json Sorting

/-! ### Printed messages -/

/-- What the printer writes for a message, with the objects that it writes for maps told from
those for messages. -/
inductive Printed
  | scalar (token : List UInt8)
  | string (body : List UInt8)
  | array (elements : List Printed)
  | message (fields : List (List UInt8 × Printed))
  | map (entries : List (List UInt8 × Printed))
  | struct (fields : List (List UInt8 × Printed))

mutual

/-- The syntax of what is printed. -/
def Printed.tree : Printed → Tree
  | .scalar token => .scalar token
  | .string body => .string body
  | .array elements => .array (elementTrees elements)
  | .message fields => .object (memberTrees fields)
  | .map entries => .object (memberTrees entries)
  | .struct fields => .object (memberTrees fields)

def elementTrees : List Printed → List Tree
  | [] => []
  | element :: elements => element.tree :: elementTrees elements

def memberTrees : List (List UInt8 × Printed) → List (List UInt8 × Tree)
  | [] => []
  | (key, member) :: members => (key, member.tree) :: memberTrees members

end

mutual

/-- The same message, with its maps handing their entries over in any order. -/
def Printed.Reorders : Printed → Printed → Prop
  | .scalar token, other => other = .scalar token
  | .string body, other => other = .string body
  | .array elements, other => ∃ others, other = .array others ∧ ReordersElements elements others
  | .message fields, other => ∃ others, other = .message others ∧ ReordersMembers fields others
  | .map entries, other =>
    ∃ between others, other = .map others ∧ ReordersMembers entries between ∧ between.Perm others
  | .struct fields, other =>
    ∃ between others, other = .struct others ∧ ReordersMembers fields between ∧
      between.Perm others

def ReordersElements : List Printed → List Printed → Prop
  | [], others => others = []
  | element :: elements, others =>
    ∃ other rest, others = other :: rest ∧ element.Reorders other ∧ ReordersElements elements rest

def ReordersMembers : List (List UInt8 × Printed) → List (List UInt8 × Printed) → Prop
  | [], others => others = []
  | (key, member) :: members, others =>
    ∃ other rest, others = (key, other) :: rest ∧ member.Reorders other ∧
      ReordersMembers members rest

end

section

variable (pool : DescriptorPool)

/-- Whether a type is a message of a form. -/
def IsForm (type : FieldType) (form : Form) : Prop :=
  ∃ descriptor found, type = .message descriptor ∧ pool[descriptor]? = some found ∧
    found.form = form

mutual

/-- What may be printed for a `google.protobuf.Value`. -/
def Printed.IsValue : Printed → Prop
  | .scalar _ => True
  | .string _ => True
  | .array elements => AreValues elements
  | .message _ => False
  | .map _ => False
  | .struct fields => (fields.map Prod.fst).Nodup ∧ AreFieldValues fields

def AreValues : List Printed → Prop
  | [] => True
  | element :: elements => element.IsValue ∧ AreValues elements

def AreFieldValues : List (List UInt8 × Printed) → Prop
  | [] => True
  | (_, member) :: members => member.IsValue ∧ AreFieldValues members

end

/-- The values of a map or the elements of a list, as fields of their own. -/
def elementField (type : FieldType) : FieldDescriptor where
  name := []
  type := type

mutual

/-- What may be printed for a field. -/
def Printed.Shows : Printed → FieldDescriptor → Prop
  | .scalar _, field => field.isMap = false ∧ field.isRepeated = false ∧
    (field.type = .scalar ∨ IsForm pool field.type .value ∨ IsForm pool field.type .string)
  | .string _, field => field.isMap = false ∧ field.isRepeated = false ∧
    (field.type = .scalar ∨ IsForm pool field.type .value ∨ IsForm pool field.type .string)
  | .array elements, field => field.isMap = false ∧
    if field.isRepeated then ShowElements elements (elementField field.type)
    else (IsForm pool field.type .value ∨ IsForm pool field.type .listValue) ∧ AreValues elements
  | .message fields, field => field.isMap = false ∧ field.isRepeated = false ∧
    ∃ descriptor found, field.type = .message descriptor ∧ pool[descriptor]? = some found ∧
      found.form = .ordinary ∧ (fields.map Prod.fst).Nodup ∧ ShowFields fields found.fields
  | .map entries, field => field.isMap ∧ (entries.map Prod.fst).Nodup ∧
    ShowEntries entries (elementField field.type)
  | .struct fields, field => field.isMap = false ∧ field.isRepeated = false ∧
    (IsForm pool field.type .value ∨ IsForm pool field.type .struct) ∧
    (fields.map Prod.fst).Nodup ∧ AreFieldValues fields

def ShowElements : List Printed → FieldDescriptor → Prop
  | [], _ => True
  | element :: elements, field => element.Shows field ∧ ShowElements elements field

def ShowFields : List (List UInt8 × Printed) → List FieldDescriptor → Prop
  | [], _ => True
  | (key, member) :: members, fields =>
    (∃ field ∈ fields, field.name = key ∧ member.Shows field) ∧ ShowFields members fields

def ShowEntries : List (List UInt8 × Printed) → FieldDescriptor → Prop
  | [], _ => True
  | (_, member) :: members, field => member.Shows field ∧ ShowEntries members field

end

/-- What may be printed for a message of a descriptor. -/
def Printed.Serializes (printed : Printed) (root : ℕ) : Prop :=
  printed.Shows pool (elementField (.message root))

end

section

variable (names : List (List UInt8))

mutual

/-- Every map stands under a name, and no object has a key twice. -/
def Printed.Named : Bool → Printed → Prop
  | _, .scalar _ => True
  | _, .string _ => True
  | _, .array elements => NamedElements elements
  | _, .message fields => (fields.map Prod.fst).Nodup ∧ NamedMembers fields
  | sort, .map entries => sort = true ∧ (entries.map Prod.fst).Nodup ∧ NamedMembers entries
  | _, .struct fields => (fields.map Prod.fst).Nodup ∧ NamedMembers fields

def NamedElements : List Printed → Prop
  | [] => True
  | element :: elements => element.Named false ∧ NamedElements elements

def NamedMembers : List (List UInt8 × Printed) → Prop
  | [] => True
  | (key, member) :: members => member.Named (names.contains key) ∧ NamedMembers members

end

mutual

/-- No map has two keys that spell one integer when all its keys spell integers, and a `Struct`
with more than one field stands under the name of a map field. -/
def Printed.Canonical : Bool → Printed → Prop
  | _, .scalar _ => True
  | _, .string _ => True
  | _, .array elements => CanonicalElements elements
  | _, .message fields => CanonicalMembers fields
  | _, .map entries => TellsApart (entries.map Prod.fst) ∧ CanonicalMembers entries
  | sort, .struct fields =>
    (fields.length ≤ 1 ∨ sort = true ∧ TellsApart (fields.map Prod.fst)) ∧
      CanonicalMembers fields

def CanonicalElements : List Printed → Prop
  | [] => True
  | element :: elements => element.Canonical false ∧ CanonicalElements elements

def CanonicalMembers : List (List UInt8 × Printed) → Prop
  | [] => True
  | (key, member) :: members => member.Canonical (names.contains key) ∧ CanonicalMembers members

end

end

/-! ### Maps stand under the names of map fields -/

section

variable (names : List (List UInt8))

mutual

theorem named_of_isValue : ∀ (printed : Printed) (sort : Bool), printed.IsValue →
  printed.Named names sort
  | .scalar _, _, _ => trivial
  | .string _, _, _ => trivial
  | .array elements, _, h => named_of_areValues elements h
  | .message _, _, h => h.elim
  | .map _, _, h => h.elim
  | .struct fields, _, h => ⟨h.1, named_of_areFieldValues fields h.2⟩

theorem named_of_areValues : ∀ (elements : List Printed), AreValues elements →
  NamedElements names elements
  | [], _ => trivial
  | element :: elements, h =>
    ⟨named_of_isValue element false h.1, named_of_areValues elements h.2⟩

theorem named_of_areFieldValues : ∀ (fields : List (List UInt8 × Printed)),
    AreFieldValues fields →
  NamedMembers names fields
  | [], _ => trivial
  | (key, member) :: fields, h =>
    ⟨named_of_isValue member (names.contains key) h.1, named_of_areFieldValues fields h.2⟩

end

end

variable {pool : DescriptorPool} {root : ℕ}

mutual

theorem named_of_shows : ∀ (printed : Printed) {field : FieldDescriptor} {sort : Bool},
    printed.Shows pool field → (field.isMap → sort = true) →
    (∀ descriptor, field.type = .message descriptor → Reached pool root descriptor) →
  printed.Named (mapFieldNames pool root) sort
  | .scalar _, _, _, _, _, _ => trivial
  | .string _, _, _, _, _, _ => trivial
  | .array elements, field, _, h, _, hreached => by
    obtain ⟨-, h⟩ := h
    split at h
    case isTrue => exact named_of_showElements elements h rfl hreached
    case isFalse => exact named_of_areValues _ elements h.2
  | .message fields, field, _, h, _, hreached => by
    obtain ⟨-, -, descriptor, found, htype, hfound, -, hnodup, hfields⟩ := h
    refine ⟨hnodup, named_of_showFields fields hfields ?_⟩
    intro field hfield
    refine ⟨mem_mapFieldNames (hreached descriptor htype) hfound hfield, ?_⟩
    intro next hnext
    exact .field (hreached descriptor htype) hfound hfield hnext
  | .map entries, field, _, h, hsort, hreached =>
    ⟨hsort h.1, h.2.1, named_of_showEntries entries h.2.2 rfl hreached⟩
  | .struct fields, _, _, h, _, _ =>
    ⟨h.2.2.2.1, named_of_areFieldValues _ fields h.2.2.2.2⟩

theorem named_of_showElements : ∀ (elements : List Printed) {field : FieldDescriptor},
    ShowElements pool elements field → field.isMap = false →
    (∀ descriptor, field.type = .message descriptor → Reached pool root descriptor) →
  NamedElements (mapFieldNames pool root) elements
  | [], _, _, _, _ => trivial
  | element :: elements, field, h, hmap, hreached =>
    ⟨named_of_shows element h.1 (by simp [hmap]) hreached,
      named_of_showElements elements h.2 hmap hreached⟩

theorem named_of_showFields : ∀ (members : List (List UInt8 × Printed))
    {fields : List FieldDescriptor}, ShowFields pool members fields →
    (∀ field ∈ fields, (field.isMap → field.name ∈ mapFieldNames pool root) ∧
      ∀ next, field.type = .message next → Reached pool root next) →
  NamedMembers (mapFieldNames pool root) members
  | [], _, _, _ => trivial
  | (key, member) :: members, fields, h, hfields => by
    obtain ⟨⟨field, hfield, rfl, hmember⟩, hmembers⟩ := h
    refine ⟨named_of_shows member hmember ?_ (hfields field hfield).2,
      named_of_showFields members hmembers hfields⟩
    intro hmap
    simpa using (hfields field hfield).1 hmap

theorem named_of_showEntries : ∀ (members : List (List UInt8 × Printed))
    {field : FieldDescriptor}, ShowEntries pool members field → field.isMap = false →
    (∀ descriptor, field.type = .message descriptor → Reached pool root descriptor) →
  NamedMembers (mapFieldNames pool root) members
  | [], _, _, _, _ => trivial
  | (_, member) :: members, field, h, hmap, hreached =>
    ⟨named_of_shows member h.1 (by simp [hmap]) hreached,
      named_of_showEntries members h.2 hmap hreached⟩

end

end GRParse.Render
