import GRParse.Render.Escape

/-!
# Reading canonical JSON back

What the writer prints for a tree depends on the tree and on the containers around it only.  It is
a text of the tree's syntax, in ASCII; parsing it gives the values of the tree in their order, with
every string as it is decoded.
-/

namespace GRParse.Render

open Chunking Json JsonWriter List

/-! ### What is printed -/

/-- `std::to_string` of an integer. -/
def printedInt (value : ℤ) : List UInt8 :=
  if value < 0 then 0x2d :: decimal value.natAbs else decimal value.natAbs

mutual

/-- What is printed for a tree inside a number of containers. -/
def JsonTree.text : ℕ → JsonTree → List UInt8
  | _, .null => kNull
  | _, .bool value => if value then kTrue else kFalse
  | _, .int value => printedInt value.toInt
  | _, .uint value => printedInt value.toNat
  | _, .string text => 0x22 :: (escapeJsonAscii text ++ [0x22])
  | depth, .array elements =>
    0x5b :: (elementsText (depth + 1) true elements ++
      ((if elements = [] then [] else newLine depth) ++ [0x5d]))
  | depth, .object members =>
    0x7b :: (membersText (depth + 1) true members ++
      ((if members = [] then [] else newLine depth) ++ [0x7d]))

def elementsText : ℕ → Bool → List JsonTree → List UInt8
  | _, _, [] => []
  | depth, first, element :: elements =>
    (if first then [] else [0x2c]) ++ (newLine depth ++ (element.text depth ++
      elementsText depth false elements))

def membersText : ℕ → Bool → List (List UInt8 × JsonTree) → List UInt8
  | _, _, [] => []
  | depth, first, (name, member) :: members =>
    (if first then [] else [0x2c]) ++ (newLine depth ++ (0x22 :: (escapeJsonAscii name ++
      (0x22 :: 0x3a :: 0x20 :: (member.text depth ++ membersText depth false members)))))

end

theorem beginContainer_eq (bracket : UInt8) (writer : JsonWriter) :
  writer.beginContainer bracket = ⟨writer.positionValue.out ++ [bracket],
    true :: writer.positionValue.emptyStack, writer.positionValue.pendingValue⟩
  := rfl

theorem positionValue_pending (writer : JsonWriter) :
  writer.positionValue.pendingValue = false
  := by
  rw [positionValue]
  split
  case isTrue => rfl
  case isFalse h =>
    have h : writer.pendingValue = false := by simpa using h
    rw [nextElement]
    split
    · exact h
    · exact h

theorem positionValue_element (out : List UInt8) (first : Bool) (stack : List Bool) :
  positionValue ⟨out, first :: stack, false⟩
    = ⟨out ++ ((if first then [] else [0x2c]) ++ newLine (stack.length + 1)), false :: stack, false⟩
  := rfl

theorem positionValue_member (out : List UInt8) (first : Bool) (stack : List Bool)
    (name : List UInt8) :
  (key name ⟨out, first :: stack, false⟩).positionValue
    = ⟨out ++ ((if first then [] else [0x2c]) ++ newLine (stack.length + 1)) ++
        (0x22 :: (escapeJsonAscii name ++ [0x22, 0x3a, 0x20])), false :: stack, false⟩
  := rfl

mutual

/-- A value is printed where the writer stands, and nothing else changes. -/
theorem emit_eq : ∀ (tree : JsonTree) (writer : JsonWriter),
  tree.emit writer
    = writer.positionValue.append (tree.text writer.positionValue.emptyStack.length)
  | .null, writer => rfl
  | .bool value, writer => rfl
  | .int value, writer => rfl
  | .uint value, writer => by
    have h : printedInt value.toNat = decimal value.toNat := by
      rw [printedInt, if_neg (by omega), Int.natAbs_natCast]
    rw [JsonTree.emit, JsonTree.text, valueUint, valueRaw, h]
  | .string text, writer => rfl
  | .array elements, writer => by
    have hpending := positionValue_pending writer
    rw [JsonTree.emit, beginArray, beginContainer_eq, emitElements_eq elements hpending]
    by_cases hnil : elements = []
    · simp [hnil, endArray, endContainer, append, JsonTree.text, elementsText]
    · simp [hnil, endArray, endContainer, append, JsonTree.text]
  | .object members, writer => by
    have hpending := positionValue_pending writer
    rw [JsonTree.emit, beginObject, beginContainer_eq, emitMembers_eq members hpending]
    by_cases hnil : members = []
    · simp [hnil, endObject, endContainer, append, JsonTree.text, membersText]
    · simp [hnil, endObject, endContainer, append, JsonTree.text]

theorem emitElements_eq : ∀ (elements : List JsonTree) {out : List UInt8} {first : Bool}
    {stack : List Bool} {pending : Bool}, pending = false →
  emitElements elements ⟨out, first :: stack, pending⟩
    = ⟨out ++ elementsText (stack.length + 1) first elements,
      (if elements = [] then first else false) :: stack, pending⟩
  | [], out, first, stack, pending, _ => by simp [emitElements, elementsText]
  | element :: elements, out, first, stack, pending, hpending => by
    subst hpending
    rw [emitElements, emit_eq element, positionValue_element, append, emitElements_eq elements rfl]
    simp [elementsText]

theorem emitMembers_eq : ∀ (members : List (List UInt8 × JsonTree)) {out : List UInt8}
    {first : Bool} {stack : List Bool} {pending : Bool}, pending = false →
  emitMembers members ⟨out, first :: stack, pending⟩
    = ⟨out ++ membersText (stack.length + 1) first members,
      (if members = [] then first else false) :: stack, pending⟩
  | [], out, first, stack, pending, _ => by simp [emitMembers, membersText]
  | (name, member) :: members, out, first, stack, pending, hpending => by
    subst hpending
    rw [emitMembers, emit_eq member, positionValue_member, append, emitMembers_eq members rfl]
    simp [membersText]

end

/-! ### The syntax of what is printed -/

mutual

/-- The syntax of a tree: its scalars and its strings as they are printed. -/
def JsonTree.raw : JsonTree → Tree
  | .null => .scalar kNull
  | .bool value => .scalar (if value then kTrue else kFalse)
  | .int value => .scalar (printedInt value.toInt)
  | .uint value => .scalar (printedInt value.toNat)
  | .string text => .string (escapeJsonAscii text)
  | .array elements => .array (rawElements elements)
  | .object members => .object (rawMembers members)

def rawElements : List JsonTree → List Tree
  | [] => []
  | element :: elements => element.raw :: rawElements elements

def rawMembers : List (List UInt8 × JsonTree) → List (List UInt8 × Tree)
  | [] => []
  | (name, member) :: members => (escapeJsonAscii name, member.raw) :: rawMembers members

end

/-- The byte of a digit. -/
def digitByte (digit : ℕ) : UInt8 :=
  .ofNat (0x30 + digit)

theorem decimal_small {value : ℕ} (h : value < 10) :
  decimal value = [digitByte value]
  := by
  have h' : ∀ digit : Fin 10, UInt8.ofNat digit.val.digitChar.toNat = digitByte digit.val := by
    decide
  rw [decimal, Nat.toDigits_of_lt_base h]
  exact congrArg (fun digit => [digit]) (h' ⟨value, h⟩)

theorem decimal_large {value : ℕ} (h : 10 ≤ value) :
  decimal value = decimal (value / 10) ++ [digitByte (value % 10)]
  := by
  rw [← decimal_small (Nat.mod_lt value (by decide)), decimal,
    Nat.toDigits_of_base_le (by decide) h, map_append, decimal, decimal,
    Nat.toDigits_of_lt_base (Nat.mod_lt value (by decide))]

theorem digitByte_spec {digit : ℕ} (h : digit < 10) :
  isDigit (digitByte digit) ∧ (digitByte digit).toNat - 0x30 = digit
  := by
  have h' : ∀ d : Fin 10, isDigit (digitByte d.val) ∧
      (digitByte d.val).toNat - 0x30 = d.val := by decide
  exact h' ⟨digit, h⟩

/-- The digits of a number have its value, and do not begin with zero unless it is zero. -/
theorem decimal_spec (value : ℕ) :
  (decimal value).all isDigit ∧ digitsValue (decimal value) = value ∧
    ∃ leading rest, decimal value = leading :: rest ∧ (0 < value → leading ≠ 0x30)
  := by
  induction value using Nat.strong_induction_on with
  | _ value ih =>
    rcases Nat.lt_or_ge value 10 with h | h
    · obtain ⟨hdigit, hvalue⟩ := digitByte_spec h
      rw [decimal_small h]
      refine ⟨by simp [hdigit], by simp [digitsValue, hvalue], _, _, rfl, ?_⟩
      intro hpos heq
      rw [heq] at hvalue
      have : (0x30 : UInt8).toNat - 0x30 = 0 := rfl
      omega
    · obtain ⟨hall, hdigits, leading, rest, hleading, hne⟩ := ih (value / 10) (by omega)
      obtain ⟨hdigit, hvalue⟩ := digitByte_spec (Nat.mod_lt value (show 0 < 10 by decide))
      rw [decimal_large h]
      refine ⟨?_, ?_, leading, rest ++ [digitByte (value % 10)], ?_, fun _ => hne (by omega)⟩
      · rw [all_append, hall]
        simp [hdigit]
      · rw [digitsValue] at hdigits ⊢
        rw [foldl_append, hdigits, foldl_cons, foldl_nil, hvalue]
        omega
      · rw [hleading]
        rfl

theorem decimal_decimal (value : ℕ) :
  Decimal (decimal value)
  := by
  obtain ⟨hall, -, leading, rest, hleading, hne⟩ := decimal_spec value
  constructor
  · exact hall
  · rw [hleading]
    exact cons_ne_nil _ _
  · intro hzero
    rcases Nat.eq_zero_or_pos value with rfl | hpos
    · rfl
    · rw [hleading] at hzero
      exact absurd (Option.some.inj hzero) (hne hpos)

theorem numberValue_printedInt (value : ℤ) :
  numberValue (printedInt value) = some (value : ℚ)
  := by
  have hdecimal := decimal_decimal value.natAbs
  have hvalue := (decimal_spec value.natAbs).2.1
  rw [printedInt]
  split
  case isTrue hnegative =>
    rw [numberValue_negative hdecimal, hvalue]
    congr 1
    rw [← Int.cast_natCast, Int.ofNat_natAbs_of_nonpos hnegative.le]
    simp
  case isFalse hpositive =>
    rw [numberValue_decimal hdecimal, hvalue]
    congr 1
    rw [← Int.cast_natCast, Int.natAbs_of_nonneg (by omega)]

theorem isToken_printedInt (value : ℤ) :
  isToken (printedInt value)
  := by
  rw [isToken, scalarValue_number (numberValue_printedInt value)]
  rfl

theorem blank_newLine (depth : ℕ) :
  Blank (newLine depth)
  := by
  simp [Blank, newLine, Json.isSpace]

mutual

/-- What is printed for a tree is a text of its syntax. -/
theorem spells_text : ∀ (tree : JsonTree) (depth : ℕ),
  tree.raw.Spells (tree.text depth)
  | .null, depth => ⟨by decide, rfl⟩
  | .bool true, depth => ⟨by decide, rfl⟩
  | .bool false, depth => ⟨by decide, rfl⟩
  | .int value, depth => ⟨isToken_printedInt _, rfl⟩
  | .uint value, depth => ⟨isToken_printedInt _, rfl⟩
  | .string text, depth => ⟨isBody_escape text, rfl⟩
  | .array [], depth => ⟨[], rfl, rfl⟩
  | .array (element :: elements), depth => by
    refine ⟨elementsText (depth + 1) true (element :: elements) ++ newLine depth,
      spells_elementsText (element :: elements) (List.cons_ne_nil _ _) (depth + 1)
        (blank_newLine depth), ?_⟩
    simp [JsonTree.text]
  | .object [], depth => ⟨[], rfl, rfl⟩
  | .object (member :: members), depth => by
    refine ⟨membersText (depth + 1) true (member :: members) ++ newLine depth,
      spells_membersText (member :: members) (List.cons_ne_nil _ _) (depth + 1)
        (blank_newLine depth), ?_⟩
    simp [JsonTree.text]

theorem spells_elementsText : ∀ (elements : List JsonTree), elements ≠ [] → ∀ (depth : ℕ)
    {close : List UInt8}, Blank close →
  SpellsElements (rawElements elements) (elementsText depth true elements ++ close)
  | [], hne, _, _, _ => absurd rfl hne
  | [element], _, depth, close, hclose => by
    refine ⟨newLine depth, element.text depth, close, blank_newLine depth,
      spells_text element depth, hclose, ?_⟩
    simp [rawElements, elementsText]
  | element :: next :: elements, _, depth, close, hclose => by
    have hrest := spells_elementsText (next :: elements) (List.cons_ne_nil _ _) depth hclose
    refine ⟨newLine depth, element.text depth, [], blank_newLine depth,
      spells_text element depth, rfl, ?_⟩
    rw [if_neg (by simp [rawElements])]
    refine ⟨_, hrest, ?_⟩
    simp [elementsText]

theorem spells_membersText : ∀ (members : List (List UInt8 × JsonTree)), members ≠ [] →
    ∀ (depth : ℕ) {close : List UInt8}, Blank close →
  SpellsMembers (rawMembers members) (membersText depth true members ++ close)
  | [], hne, _, _, _ => absurd rfl hne
  | [(name, member)], _, depth, close, hclose => by
    refine ⟨newLine depth, [], [0x20], member.text depth, close, blank_newLine depth,
      isBody_escape name, rfl, rfl, spells_text member depth, hclose, ?_⟩
    simp [rawMembers, membersText]
  | (name, member) :: next :: members, _, depth, close, hclose => by
    have hrest := spells_membersText (next :: members) (List.cons_ne_nil _ _) depth hclose
    refine ⟨newLine depth, [], [0x20], member.text depth, [], blank_newLine depth,
      isBody_escape name, rfl, rfl, spells_text member depth, rfl, ?_⟩
    rw [if_neg (by simp [rawMembers])]
    refine ⟨_, hrest, ?_⟩
    simp [membersText]

end

/-! ### What it says -/

mutual

/-- The value of a tree, with the bytes of its strings. -/
def JsonTree.value : JsonTree → Value (List UInt8)
  | .null => .null
  | .bool value => .bool value
  | .int value => .number value.toInt
  | .uint value => .number value.toNat
  | .string text => .string text
  | .array elements => .array (valueElements elements)
  | .object members => .object (valueMembers members)

def valueElements : List JsonTree → List (Value (List UInt8))
  | [] => []
  | element :: elements => element.value :: valueElements elements

def valueMembers : List (List UInt8 × JsonTree) → List (List UInt8 × Value (List UInt8))
  | [] => []
  | (name, member) :: members => (name, member.value) :: valueMembers members

end

mutual

theorem value_raw : ∀ (tree : JsonTree),
  tree.raw.value = some (tree.value.map decodeUtf8)
  | .null => rfl
  | .bool true => rfl
  | .bool false => rfl
  | .int value => scalarValue_number (numberValue_printedInt _)
  | .uint value => by
    have h := @scalarValue_number (List ℕ) _ _ (numberValue_printedInt value.toNat)
    rw [Int.cast_natCast] at h
    exact h
  | .string text => by
    rw [JsonTree.raw, Tree.value, decodeBody_escape]
    rfl
  | .array elements => by
    rw [JsonTree.raw, Tree.value, values_rawElements elements]
    rfl
  | .object members => by
    rw [JsonTree.raw, Tree.value, values_rawMembers members]
    rfl

theorem values_rawElements : ∀ (elements : List JsonTree),
  elementValues (rawElements elements) = some (mapElements decodeUtf8 (valueElements elements))
  | [] => rfl
  | element :: elements => by
    rw [rawElements, elementValues, value_raw element, values_rawElements elements]
    rfl

theorem values_rawMembers : ∀ (members : List (List UInt8 × JsonTree)),
  memberValues (rawMembers members) = some (mapMembers decodeUtf8 (valueMembers members))
  | [] => rfl
  | (name, member) :: members => by
    rw [rawMembers, memberValues, decodeBody_escape, value_raw member, values_rawMembers members]
    rfl

end

/-- The bytes of some text in UTF-8. -/
def ValidUtf8 (text : List UInt8) : Prop :=
  ∃ points, (∀ point ∈ points, IsScalar point) ∧ text = encodeUtf8 points

theorem decodeUtf8_injOn (text other : List UInt8) (h : ValidUtf8 text) (hother : ValidUtf8 other)
    (heq : decodeUtf8 text = decodeUtf8 other) :
  text = other
  := by
  obtain ⟨points, hpoints, rfl⟩ := h
  obtain ⟨others, hothers, rfl⟩ := hother
  rw [decodeUtf8_encodeUtf8 hpoints, decodeUtf8_encodeUtf8 hothers] at heq
  rw [heq]

/-! ### Only ASCII -/

/-- A text in ASCII. -/
def Ascii (text : List UInt8) : Prop :=
  ∀ byte ∈ text, byte < 0x80

@[simp]
theorem ascii_nil : Ascii [] := by
  simp [Ascii]

@[simp]
theorem ascii_cons {byte : UInt8} {text : List UInt8} :
  Ascii (byte :: text) ↔ byte < 0x80 ∧ Ascii text
  := forall_mem_cons

@[simp]
theorem ascii_append {text other : List UInt8} :
  Ascii (text ++ other) ↔ Ascii text ∧ Ascii other
  := forall_mem_append

theorem ascii_escape (text : List UInt8) :
  Ascii (escapeJsonAscii text)
  := fun _ => escape_ascii

theorem ascii_newLine (depth : ℕ) :
  Ascii (newLine depth)
  := by
  intro byte hbyte
  rcases mem_cons.mp hbyte with rfl | hbyte
  · decide
  · obtain rfl := eq_of_mem_replicate hbyte
    decide

theorem ascii_printedInt (value : ℤ) :
  Ascii (printedInt value)
  := by
  intro byte hbyte
  have hnumber := (numberValue_spec (numberValue_printedInt value)).2 byte hbyte
  simp only [isNumberByte, isDigit, Bool.or_eq_true, Bool.and_eq_true, decide_eq_true_eq] at hnumber
  rcases hnumber with ((((⟨-, hdigit⟩ | rfl) | rfl) | rfl) | rfl) | rfl
  · exact UInt8.lt_of_le_of_lt hdigit (by decide)
  all_goals decide

theorem ascii_separator (first : Bool) :
  Ascii (if first then [] else [0x2c])
  := by
  cases first
  · simp
  · simp

theorem ascii_close (depth : ℕ) {p : Prop} [Decidable p] :
  Ascii (if p then [] else newLine depth)
  := by
  split
  · simp
  · exact ascii_newLine depth

mutual

theorem ascii_text : ∀ (tree : JsonTree) (depth : ℕ),
  Ascii (tree.text depth)
  | .null, _ => by simp [JsonTree.text, kNull]
  | .bool true, _ => by simp [JsonTree.text, kTrue]
  | .bool false, _ => by simp [JsonTree.text, kFalse]
  | .int value, _ => ascii_printedInt _
  | .uint value, _ => ascii_printedInt _
  | .string text, _ => by
    simp [JsonTree.text, ascii_escape]
  | .array elements, depth => by
    simp [JsonTree.text, ascii_elementsText elements, ascii_close]
  | .object members, depth => by
    simp [JsonTree.text, ascii_membersText members, ascii_close]

theorem ascii_elementsText : ∀ (elements : List JsonTree) (depth : ℕ) (first : Bool),
  Ascii (elementsText depth first elements)
  | [], _, _ => ascii_nil
  | element :: elements, depth, first => by
    simp [elementsText, ascii_separator, ascii_newLine, ascii_text element,
      ascii_elementsText elements]

theorem ascii_membersText : ∀ (members : List (List UInt8 × JsonTree)) (depth : ℕ) (first : Bool),
  Ascii (membersText depth first members)
  | [], _, _ => ascii_nil
  | (name, member) :: members, depth, first => by
    simp [membersText, ascii_separator, ascii_newLine, ascii_escape, ascii_text member,
      ascii_membersText members]

end

/-! ### Reading back -/

theorem out_emit (tree : JsonTree) :
  (tree.emit {}).out = tree.text 0
  := by
  rw [emit_eq]
  rfl

/-- What the writer prints for a tree is a JSON text in ASCII, and it is read to the tree: its
values in their order, each string as the chunker decodes it.  So trees of valid UTF-8 print alike
only if they have the same values. -/
theorem emit_readsBack (tree : JsonTree) :
  Ascii (tree.emit {}).out ∧ Spelled tree.raw (tree.emit {}).out ∧
  Json.read (tree.emit {}).out = some (tree.value.map decodeUtf8) ∧
  ∀ other : JsonTree, tree.value.All ValidUtf8 → other.value.All ValidUtf8 →
    tree.value ≠ other.value → (tree.emit {}).out ≠ (other.emit {}).out
  := by
  have hspelled : ∀ tree : JsonTree, Spelled tree.raw (tree.emit {}).out := by
    intro tree
    rw [out_emit]
    exact ⟨[], tree.text 0, [], rfl, spells_text tree 0, rfl, by simp⟩
  have hread : ∀ tree : JsonTree, Json.read (tree.emit {}).out = some (tree.value.map decodeUtf8) := by
    intro tree
    rw [Json.read, parse_of_spelled (hspelled tree)]
    exact value_raw tree
  refine ⟨?_, hspelled tree, hread tree, ?_⟩
  · rw [out_emit]
    exact ascii_text tree 0
  · intro other hvalid hother hne heq
    have h := hread tree
    rw [heq, hread other] at h
    exact hne (Value.map_injOn decodeUtf8_injOn hvalid hother (Option.some.inj h).symm)

/-- A character beyond the first 65536 is escaped as a surrogate pair. -/
example : (JsonTree.array [.string [0xf0, 0x9f, 0x98, 0x80], .int (-7)]).text 0
    = "[\n  \"\\ud83d\\ude00\",\n  -7\n]".toList.map (fun c => .ofNat c.toNat) := by
  decide

end GRParse.Render
