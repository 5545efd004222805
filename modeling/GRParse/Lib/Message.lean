import Mathlib.Data.List.Basic

/-!
# Messages

A protocol buffer message the way reflection walks it: the fields it lists, one entry for
each element of a repeated or map field.  A string field that has presence is listed when
it is set, one that has none is always listed.  What a walk does not tell apart (numbers,
enumerations, bytes, repeated strings) is a scalar.
-/

namespace Protobuf

/-- A message: its fields, in the order of the descriptor. -/
inductive Message where
  | done
  | scalar (field : String) (value : String) (rest : Message)
  | string (field : String) (value : String) (rest : Message)
  | message (field : String) (value : Message) (rest : Message)
  deriving DecidableEq, Repr

/-- The message with the string fields of the given names changed, at every depth. -/
def Message.mapStrings (names : String → Bool) (f : String → String) : Message → Message
  | .done => .done
  | .scalar field value rest => .scalar field value (rest.mapStrings names f)
  | .string field value rest =>
    .string field (if names field then f value else value) (rest.mapStrings names f)
  | .message field value rest =>
    .message field (value.mapStrings names f) (rest.mapStrings names f)

/-! ### The strings of a message -/

/-- The string fields of the given names, at every depth. -/
def Message.strings (names : String → Bool) : Message → List String
  | .done => []
  | .scalar _ _ rest => rest.strings names
  | .string field value rest =>
    if names field then value :: rest.strings names else rest.strings names
  | .message _ value rest => value.strings names ++ rest.strings names

/-- Each string is changed in its place. -/
theorem Message.strings_mapStrings (names : String → Bool) (f : String → String)
    (message : Message) :
  (message.mapStrings names f).strings names = (message.strings names).map f
  := by
  induction message with
  | done => rfl
  | scalar field value rest ih => exact ih
  | string field value rest ih =>
    rw [mapStrings, strings, strings, ih]
    split
    · rfl
    · rfl
  | message field value rest ihValue ihRest =>
    rw [mapStrings, strings, strings, ihValue, ihRest, List.map_append]

/-- What a string field holds; nothing when the field is not listed. -/
def Message.getString (name : String) : Message → String
  | .done => ""
  | .scalar _ _ rest => rest.getString name
  | .string field value rest => if field = name then value else rest.getString name
  | .message _ _ rest => rest.getString name

theorem Message.getString_mapStrings {names : String → Bool} (f : String → String)
    {name : String} (hname : names name = true) {message : Message}
    (h : message.getString name ≠ "") :
  (message.mapStrings names f).getString name = f (message.getString name)
  := by
  induction message with
  | done => exact absurd rfl h
  | scalar field value rest ih => exact ih h
  | string field value rest ih =>
    rw [getString] at h
    rw [mapStrings, getString, getString]
    split
    next heq => rw [if_pos (heq ▸ hname)]
    next hne => exact ih (by rwa [if_neg hne] at h)
  | message field value rest _ ih => exact ih h

/-- The message a field holds, if the field is set. -/
def Message.getMessage (name : String) : Message → Option Message
  | .done => none
  | .scalar _ _ rest => rest.getMessage name
  | .string _ _ rest => rest.getMessage name
  | .message field value rest => if field = name then some value else rest.getMessage name

theorem Message.getMessage_mapStrings (names : String → Bool) (f : String → String)
    (name : String) (message : Message) :
  (message.mapStrings names f).getMessage name =
    (message.getMessage name).map (·.mapStrings names f)
  := by
  induction message with
  | done => rfl
  | scalar field value rest ih => exact ih
  | string field value rest ih => exact ih
  | message field value rest _ ih =>
    rw [mapStrings, getMessage, getMessage, ih]
    split
    · rfl
    · rfl

end Protobuf

/-!
## Records

A message whose fields may be merged with those of another message of its type.  Its descriptor
says which fields it has: singular fields that are taken or left whole, repeated fields, maps,
and singular messages, which are records themselves.
-/

namespace Protobuf

/-- The fields of a type of messages. -/
inductive Descriptor where
  | done
  | single (name : String) (rest : Descriptor)
  | repeated (name : String) (rest : Descriptor)
  | map (name : String) (rest : Descriptor)
  | message (name : String) (nested rest : Descriptor)

/-- A message of the described type.  A singular field may not be set; what a field holds is a
message of its own, and an entry of a map stands under its key. -/
def Record : Descriptor → Type
  | .done => Unit
  | .single _ rest => Option Message × Record rest
  | .repeated _ rest => List Message × Record rest
  | .map _ rest => List (String × Message) × Record rest
  | .message _ nested rest => Option (Record nested) × Record rest

namespace Record

/-- The record with the string fields of the given names changed, at every depth. -/
def mapStrings (names : String → Bool) (f : String → String) :
    (descriptor : Descriptor) → Record descriptor → Record descriptor
  | .done, record => record
  | .single _ rest, (value, record) =>
    (value.map (·.mapStrings names f), mapStrings names f rest record)
  | .repeated _ rest, (elements, record) =>
    (elements.map (·.mapStrings names f), mapStrings names f rest record)
  | .map _ rest, (entries, record) =>
    (entries.map fun entry => (entry.1, entry.2.mapStrings names f), mapStrings names f rest record)
  | .message _ nested rest, (value, record) =>
    (value.map (mapStrings names f nested), mapStrings names f rest record)

/-- The source is merged into the target: what the target says stays, a field it leaves open
takes the source's value, lists are appended, and maps get the entries they lack. -/
def merge : (descriptor : Descriptor) → Record descriptor → Record descriptor → Record descriptor
  | .done, _, target => target
  | .single _ rest, (value, source), (value', target) =>
    (value'.or value, merge rest source target)
  | .repeated _ rest, (elements, source), (elements', target) =>
    (elements' ++ elements, merge rest source target)
  | .map _ rest, (entries, source), (entries', target) =>
    (entries' ++ entries.filter (fun entry => entry.1 ∉ entries'.map (·.1)),
      merge rest source target)
  | .message _ nested rest, (value, source), (value', target) =>
    (Option.merge (merge nested) value value', merge rest source target)

/-- The second record says all that the first one says, in its place: the same values, its lists
go on where those of the first end, and its maps have no second entry under a key. -/
def Extends : (descriptor : Descriptor) → Record descriptor → Record descriptor → Prop
  | .done, _, _ => True
  | .single _ rest, (value, record), (value', record') =>
    (∀ message, value = some message → value' = some message) ∧ Extends rest record record'
  | .repeated _ rest, (elements, record), (elements', record') =>
    elements <+: elements' ∧ Extends rest record record'
  | .map _ rest, (entries, record), (entries', record') =>
    (∃ more, entries' = entries ++ more ∧ ∀ entry ∈ more, entry.1 ∉ entries.map (·.1)) ∧
      Extends rest record record'
  | .message _ nested rest, (value, record), (value', record') =>
    (∀ message, value = some message →
      ∃ message', value' = some message' ∧ Extends nested message message') ∧
      Extends rest record record'

theorem Extends.refl (descriptor : Descriptor) (record : Record descriptor) :
  Extends descriptor record record
  := by
  induction descriptor with
  | done => trivial
  | single name rest ih => exact ⟨fun _ h => h, ih record.2⟩
  | repeated name rest ih => exact ⟨List.prefix_rfl, ih record.2⟩
  | map name rest ih =>
    exact ⟨⟨[], (List.append_nil _).symm, fun _ h => absurd h List.not_mem_nil⟩, ih record.2⟩
  | message name nested rest ihNested ihRest =>
    exact ⟨fun message h => ⟨message, h, ihNested message⟩, ihRest record.2⟩

/-- A merge changes nothing that the target says. -/
theorem extends_merge (descriptor : Descriptor) (source target : Record descriptor) :
  Extends descriptor target (merge descriptor source target)
  := by
  induction descriptor with
  | done => trivial
  | single name rest ih =>
    refine ⟨fun message h => ?_, ih source.2 target.2⟩
    rw [h]
    rfl
  | repeated name rest ih => exact ⟨List.prefix_append _ _, ih source.2 target.2⟩
  | map name rest ih =>
    refine ⟨⟨_, rfl, fun entry hentry => ?_⟩, ih source.2 target.2⟩
    simpa using (List.mem_filter.mp hentry).2
  | message name nested rest ihNested ihRest =>
    obtain ⟨value, source⟩ := source
    obtain ⟨value', target⟩ := target
    refine ⟨?_, ihRest source target⟩
    rintro message rfl
    cases value with
    | none => exact ⟨message, rfl, .refl nested message⟩
    | some value => exact ⟨_, rfl, ihNested value message⟩

end Record

end Protobuf
