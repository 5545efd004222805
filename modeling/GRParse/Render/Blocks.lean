import GRParse.Render.ReadBack

/-!
# Blocks of canonical JSON

A block is a text that the writer prints for a value at any depth.  Blocks are put together as the
calls of the writer are: what writes some elements one after the other, between the calls that begin
and end an array, writes the array; and the same for the members of an object.  So the value that a
sequence of calls writes is found by following the calls, whatever the writer holds already.
-/

namespace GRParse.Render

open Chunking Json JsonWriter

/-- A value as it is printed inside a number of containers. -/
structure Block where
  value : Value (List ℕ)
  tree : Tree
  text : ℕ → List UInt8
  reads : tree.value = some value
  spells : ∀ depth, tree.Spells (text depth)

/-- The elements of an array between its brackets. -/
def blocksText (depth : ℕ) : Bool → List Block → List UInt8
  | _, [] => []
  | first, block :: blocks =>
    (if first then [] else [0x2c]) ++ (newLine depth ++ (block.text depth ++
      blocksText depth false blocks))

/-- The members of an object between its braces. -/
def namedText (depth : ℕ) : Bool → List (List UInt8 × Block) → List UInt8
  | _, [] => []
  | first, (name, block) :: members =>
    (if first then [] else [0x2c]) ++ (newLine depth ++ (0x22 :: (escapeJsonAscii name ++
      (0x22 :: 0x3a :: 0x20 :: (block.text depth ++ namedText depth false members)))))

theorem blocksText_append (depth : ℕ) (first : Bool) (blocks more : List Block) :
  blocksText depth first (blocks ++ more) =
    blocksText depth first blocks ++ blocksText depth (first && blocks.isEmpty) more
  := by
  induction blocks generalizing first with
  | nil => simp [blocksText]
  | cons block blocks ih => simp [blocksText, ih]

theorem namedText_append (depth : ℕ) (first : Bool) (members more : List (List UInt8 × Block)) :
  namedText depth first (members ++ more) =
    namedText depth first members ++ namedText depth (first && members.isEmpty) more
  := by
  induction members generalizing first with
  | nil => simp [namedText]
  | cons member members ih => simp [namedText, ih]

theorem spells_blocksText (depth : ℕ) {close : List UInt8} (hclose : Blank close) :
  ∀ blocks : List Block, blocks ≠ [] →
    SpellsElements (blocks.map Block.tree) (blocksText depth true blocks ++ close)
  | [], hne => absurd rfl hne
  | [block], _ => by
    refine ⟨newLine depth, block.text depth, close, blank_newLine depth, block.spells depth, hclose,
      ?_⟩
    simp [blocksText]
  | block :: next :: blocks, _ => by
    have hrest := spells_blocksText depth hclose (next :: blocks) (List.cons_ne_nil _ _)
    refine ⟨newLine depth, block.text depth, [], blank_newLine depth, block.spells depth, rfl, ?_⟩
    rw [if_neg (by simp)]
    refine ⟨_, hrest, ?_⟩
    simp [blocksText]

/-- The trees of named blocks, under the names as they are escaped. -/
def namedTrees (members : List (List UInt8 × Block)) : List (List UInt8 × Tree) :=
  members.map fun member => (escapeJsonAscii member.1, member.2.tree)

theorem spells_namedText (depth : ℕ) {close : List UInt8} (hclose : Blank close) :
  ∀ members : List (List UInt8 × Block), members ≠ [] →
    SpellsMembers (namedTrees members) (namedText depth true members ++ close)
  | [], hne => absurd rfl hne
  | [(name, block)], _ => by
    refine ⟨newLine depth, [], [0x20], block.text depth, close, blank_newLine depth,
      isBody_escape name, rfl, rfl, block.spells depth, hclose, ?_⟩
    simp [namedText]
  | (name, block) :: next :: members, _ => by
    have hrest := spells_namedText depth hclose (next :: members) (List.cons_ne_nil _ _)
    refine ⟨newLine depth, [], [0x20], block.text depth, [], blank_newLine depth,
      isBody_escape name, rfl, rfl, block.spells depth, rfl, ?_⟩
    rw [if_neg (by simp)]
    refine ⟨_, hrest, ?_⟩
    simp [namedText]

variable {value : Value (List ℕ)}

namespace Block

theorem elementValues_map (blocks : List Block) :
  elementValues (blocks.map Block.tree) = some (blocks.map Block.value)
  := by
  induction blocks with
  | nil => rfl
  | cons block blocks ih => simp [elementValues, block.reads, ih]

theorem memberValues_namedTrees (members : List (List UInt8 × Block)) :
  memberValues (namedTrees members) =
    some (members.map fun member => (decodeUtf8 member.1, member.2.value))
  := by
  induction members with
  | nil => rfl
  | cons member members ih =>
    rw [namedTrees] at ih
    simp [namedTrees, memberValues, decodeBody_escape, member.2.reads, ih]

/-- A scalar is one whatever strings are made of. -/
theorem isToken_of_scalarValue {token : List UInt8} (h : scalarValue token = some value) :
  isToken token
  := by
  rw [isToken, scalarValue]
  rw [scalarValue] at h
  split
  · rfl
  split
  · rfl
  split
  · rfl
  · rename_i hnull htrue hfalse
    rw [if_neg hnull, if_neg htrue, if_neg hfalse] at h
    cases hnumber : numberValue token with
    | none => simp [hnumber] at h
    | some number => rfl

/-- A number or another word. -/
def token (token : List UInt8) (value : Value (List ℕ)) (h : scalarValue token = some value) :
    Block where
  value := value
  tree := .scalar token
  text _ := token
  reads := h
  spells _ := ⟨isToken_of_scalarValue h, rfl⟩

def string (text : List UInt8) : Block where
  value := .string (decodeUtf8 text)
  tree := .string (escapeJsonAscii text)
  text _ := 0x22 :: (escapeJsonAscii text ++ [0x22])
  reads := by
    rw [Tree.value, decodeBody_escape]
    rfl
  spells _ := ⟨isBody_escape text, rfl⟩

def array (blocks : List Block) : Block where
  value := .array (blocks.map Block.value)
  tree := .array (blocks.map Block.tree)
  text depth := 0x5b :: (blocksText (depth + 1) true blocks ++
    ((if blocks.isEmpty then [] else newLine depth) ++ [0x5d]))
  reads := by
    rw [Tree.value, elementValues_map]
    rfl
  spells depth := by
    cases blocks with
    | nil => exact ⟨[], rfl, rfl⟩
    | cons block blocks =>
      refine ⟨_, spells_blocksText (depth + 1) (blank_newLine depth) (block :: blocks)
        (List.cons_ne_nil _ _), ?_⟩
      simp

def object (members : List (List UInt8 × Block)) : Block where
  value := .object (members.map fun member => (decodeUtf8 member.1, member.2.value))
  tree := .object (namedTrees members)
  text depth := 0x7b :: (namedText (depth + 1) true members ++
    ((if members.isEmpty then [] else newLine depth) ++ [0x7d]))
  reads := by
    rw [Tree.value, memberValues_namedTrees]
    rfl
  spells depth := by
    cases members with
    | nil => exact ⟨[], rfl, rfl⟩
    | cons member members =>
      refine ⟨_, spells_namedText (depth + 1) (blank_newLine depth) (member :: members)
        (List.cons_ne_nil _ _), ?_⟩
      simp

end Block

/-! ### What calls write -/

/-- Some calls write a value where the writer stands. -/
def Writes (value : Value (List ℕ)) (calls : JsonWriter → JsonWriter) : Prop :=
  ∃ block : Block, block.value = value ∧ ∀ writer, calls writer =
    writer.positionValue.append (block.text writer.positionValue.emptyStack.length)

/-- Some calls write values as elements of the innermost container. -/
def WritesElements (values : List (Value (List ℕ))) (calls : JsonWriter → JsonWriter) : Prop :=
  ∃ blocks : List Block, blocks.map Block.value = values ∧
    ∀ out first stack, calls ⟨out, first :: stack, false⟩ =
      ⟨out ++ blocksText (stack.length + 1) first blocks, (first && blocks.isEmpty) :: stack, false⟩

/-- Some calls write values as members of the innermost container. -/
def WritesMembers (members : List (List ℕ × Value (List ℕ))) (calls : JsonWriter → JsonWriter) :
    Prop :=
  ∃ blocks : List (List UInt8 × Block),
    (blocks.map fun member => (decodeUtf8 member.1, member.2.value)) = members ∧
    ∀ out first stack, calls ⟨out, first :: stack, false⟩ =
      ⟨out ++ namedText (stack.length + 1) first blocks, (first && blocks.isEmpty) :: stack, false⟩

theorem writes_valueRaw {token : List UInt8} (h : scalarValue token = some value) :
  Writes value (valueRaw token)
  := ⟨.token token value h, rfl, fun _ => rfl⟩

theorem writes_printedInt (value : ℤ) :
  Writes (.number value) (valueRaw (printedInt value))
  := writes_valueRaw (scalarValue_number (numberValue_printedInt value))

theorem writes_valueString (text : List UInt8) :
  Writes (.string (decodeUtf8 text)) (valueString text)
  := ⟨.string text, rfl, fun _ => rfl⟩

theorem writesElements_nil :
  WritesElements [] id
  := by
  refine ⟨[], rfl, ?_⟩
  intro out first stack
  simp [blocksText]

variable {calls : JsonWriter → JsonWriter}

/-- What writes a value writes one element. -/
theorem Writes.element (h : Writes value calls) :
  WritesElements [value] calls
  := by
  obtain ⟨block, rfl, hcalls⟩ := h
  refine ⟨[block], rfl, ?_⟩
  intro out first stack
  rw [hcalls, positionValue_element]
  simp [append, blocksText]

theorem WritesElements.append {values more : List (Value (List ℕ))}
    {calls calls' : JsonWriter → JsonWriter} (h : WritesElements values calls)
    (h' : WritesElements more calls') :
  WritesElements (values ++ more) (fun writer => calls' (calls writer))
  := by
  obtain ⟨blocks, rfl, hcalls⟩ := h
  obtain ⟨others, rfl, hcalls'⟩ := h'
  refine ⟨blocks ++ others, List.map_append, ?_⟩
  intro out first stack
  dsimp only
  rw [hcalls, hcalls', blocksText_append]
  cases blocks with
  | nil => simp
  | cons block blocks => simp

/-- A loop writes the elements of its rounds. -/
theorem writesElements_foldl {α : Type} {value : α → Value (List ℕ)}
    {calls : JsonWriter → α → JsonWriter} {l : List α}
    (h : ∀ a ∈ l, Writes (value a) (calls · a)) :
  WritesElements (l.map value) (fun writer => l.foldl calls writer)
  := by
  induction l with
  | nil => exact writesElements_nil
  | cons a l ih =>
    obtain ⟨hhead, htail⟩ := List.forall_mem_cons.mp h
    exact hhead.element.append (ih htail)

/-- What writes elements writes an array, between the calls that begin and end it. -/
theorem WritesElements.array {values : List (Value (List ℕ))} {calls : JsonWriter → JsonWriter}
    (h : WritesElements values calls) :
  Writes (.array values) (fun writer => (calls writer.beginArray).endArray)
  := by
  obtain ⟨blocks, rfl, hcalls⟩ := h
  refine ⟨.array blocks, rfl, ?_⟩
  intro writer
  have hpending := positionValue_pending writer
  dsimp only
  rw [beginArray, beginContainer_eq, hpending, hcalls]
  generalize writer.positionValue = placed at hpending
  obtain ⟨out, stack, pending⟩ := placed
  obtain rfl : pending = false := hpending
  cases blocks with
  | nil => simp [endArray, endContainer, JsonWriter.append, Block.array, blocksText]
  | cons block blocks => simp [endArray, endContainer, JsonWriter.append, Block.array]

theorem writesMembers_nil :
  WritesMembers [] id
  := by
  refine ⟨[], rfl, ?_⟩
  intro out first stack
  simp [namedText]

/-- What writes a value writes a member, behind a key. -/
theorem Writes.member (h : Writes value calls) (name : List UInt8) :
  WritesMembers [(decodeUtf8 name, value)] (fun writer => calls (writer.key name))
  := by
  obtain ⟨block, rfl, hcalls⟩ := h
  refine ⟨[(name, block)], rfl, ?_⟩
  intro out first stack
  dsimp only
  rw [hcalls, positionValue_member]
  simp [JsonWriter.append, namedText]

theorem WritesMembers.append {members more : List (List ℕ × Value (List ℕ))}
    {calls calls' : JsonWriter → JsonWriter} (h : WritesMembers members calls)
    (h' : WritesMembers more calls') :
  WritesMembers (members ++ more) (fun writer => calls' (calls writer))
  := by
  obtain ⟨blocks, rfl, hcalls⟩ := h
  obtain ⟨others, rfl, hcalls'⟩ := h'
  refine ⟨blocks ++ others, List.map_append, ?_⟩
  intro out first stack
  dsimp only
  rw [hcalls, hcalls', namedText_append]
  cases blocks with
  | nil => simp
  | cons block blocks => simp

/-- A loop writes the members of its rounds. -/
theorem writesMembers_foldl {α : Type} {member : α → List ℕ × Value (List ℕ)}
    {calls : JsonWriter → α → JsonWriter} {l : List α}
    (h : ∀ a ∈ l, WritesMembers [member a] (calls · a)) :
  WritesMembers (l.map member) (fun writer => l.foldl calls writer)
  := by
  induction l with
  | nil => exact writesMembers_nil
  | cons a l ih =>
    obtain ⟨hhead, htail⟩ := List.forall_mem_cons.mp h
    exact hhead.append (ih htail)

/-- What writes members writes an object, between the calls that begin and end it. -/
theorem WritesMembers.object {members : List (List ℕ × Value (List ℕ))}
    {calls : JsonWriter → JsonWriter} (h : WritesMembers members calls) :
  Writes (.object members) (fun writer => (calls writer.beginObject).endObject)
  := by
  obtain ⟨blocks, rfl, hcalls⟩ := h
  refine ⟨.object blocks, rfl, ?_⟩
  intro writer
  have hpending := positionValue_pending writer
  dsimp only
  rw [beginObject, beginContainer_eq, hpending, hcalls]
  generalize writer.positionValue = placed at hpending
  obtain ⟨out, stack, pending⟩ := placed
  obtain rfl : pending = false := hpending
  cases blocks with
  | nil => simp [endObject, endContainer, JsonWriter.append, Block.object, namedText]
  | cons block blocks => simp [endObject, endContainer, JsonWriter.append, Block.object]

/-- What is written to a new writer is read to the value. -/
theorem Writes.read_out (h : Writes value calls) :
  Json.read (calls {}).out = some value
  := by
  obtain ⟨block, rfl, hcalls⟩ := h
  have hspelled : Spelled block.tree (calls {}).out := by
    rw [hcalls]
    refine ⟨[], block.text 0, [], rfl, block.spells 0, rfl, ?_⟩
    simp [JsonWriter.append, positionValue, nextElement]
  rw [Json.read, parse_of_spelled hspelled]
  exact block.reads

end GRParse.Render
