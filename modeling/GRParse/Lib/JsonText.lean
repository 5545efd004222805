import GRParse.Lib.Json

/-!
# Parsing JSON texts

Every text of a tree is parsed to that tree, whatever white space stands in it and around it; so a
text has one tree only.
-/

namespace Json

open List

/-! ### Parsing what is spelled -/

/-- What may follow a value. -/
def Ends (rest : List UInt8) : Prop :=
  ∀ byte ∈ rest.head?, endsScalar byte

theorem ends_append {after rest : List UInt8} {byte : UInt8} (h : Blank after)
    (hbyte : endsScalar byte) :
  Ends (after ++ byte :: rest)
  := by
  intro first hfirst
  cases after with
  | nil =>
    obtain rfl := Option.mem_some_iff.mp hfirst
    exact hbyte
  | cons space after =>
    obtain rfl := Option.mem_some_iff.mp hfirst
    have hspace : isSpace space := all_eq_true.mp h space mem_cons_self
    simp [endsScalar, hspace]

theorem ends_of_blank {after : List UInt8} (h : Blank after) :
  Ends after
  := by
  intro first hfirst
  have hspace : isSpace first := all_eq_true.mp h first (mem_of_mem_head? hfirst)
  simp [endsScalar, hspace]

theorem parseScalar_append {token rest : List UInt8} (h : isToken token) (hrest : Ends rest) :
  parseScalar (token ++ rest) = some (token, rest)
  := by
  have htoken : ∀ byte ∈ token, !endsScalar byte := by
    intro byte hbyte
    rw [endsScalar_of_isToken h hbyte]
    rfl
  have htake : (token ++ rest).takeWhile (!endsScalar ·) = token := by
    rw [takeWhile_append_of_pos htoken]
    cases rest with
    | nil => simp
    | cons byte rest => simp [hrest byte rfl]
  have hdrop : (token ++ rest).dropWhile (!endsScalar ·) = rest := by
    rw [dropWhile_append_of_pos htoken]
    cases rest with
    | nil => rfl
    | cons byte rest => simp [hrest byte rfl]
  simp only [parseScalar, htake, hdrop, h, if_true]

theorem parseBody_append {body rest : List UInt8} (h : isBody body) :
  parseBody (body ++ 0x22 :: rest) = some (body, rest)
  := by
  simp [parseBody, scanBody_append h, h]

theorem isSpace_of_lt {byte : UInt8} (h : 0x20 < byte) :
  isSpace byte = false
  := by
  by_contra hspace
  simp only [isSpace, Bool.not_eq_false, Bool.or_eq_true, decide_eq_true_eq] at hspace
  rcases hspace with ((rfl | rfl) | rfl) | rfl
  all_goals exact absurd h (by decide)

/-- A value begins with neither white space nor a closing bracket. -/
theorem Tree.Spells.head {tree : Tree} {text : List UInt8} (h : tree.Spells text) :
  ∃ byte rest, text = byte :: rest ∧ 0x20 < byte ∧ byte ≠ 0x5d ∧ byte ≠ 0x7d
  := by
  cases tree with
  | scalar token =>
    obtain ⟨htoken, rfl⟩ := h
    obtain ⟨byte, rest, rfl, -⟩ := isToken_head htoken
    have hends := endsScalar_of_isToken htoken mem_cons_self
    simp only [endsScalar, Bool.or_eq_false_iff, decide_eq_false_iff_not] at hends
    exact ⟨byte, rest, rfl, lt_of_isToken htoken mem_cons_self, hends.1.1.2, hends.1.2⟩
  | string body =>
    obtain ⟨-, rfl⟩ := h
    exact ⟨_, _, rfl, by decide, by decide, by decide⟩
  | array elements =>
    obtain ⟨inside, -, rfl⟩ := h
    exact ⟨_, _, rfl, by decide, by decide, by decide⟩
  | object members =>
    obtain ⟨inside, -, rfl⟩ := h
    exact ⟨_, _, rfl, by decide, by decide, by decide⟩

/-- The space before a value is skipped, and no more. -/
theorem skipSpace_value {tree : Tree} {before text rest : List UInt8} (hbefore : Blank before)
    (h : tree.Spells text) :
  skipSpace (before ++ (text ++ rest)) = text ++ rest
  := by
  obtain ⟨byte, tail, rfl, hbyte, -⟩ := h.head
  rw [skipSpace_append hbefore, cons_append, skipSpace_cons (isSpace_of_lt hbyte)]

theorem skipSpace_byte {before rest : List UInt8} {byte : UInt8} (hbefore : Blank before)
    (h : isSpace byte = false) :
  skipSpace (before ++ byte :: rest) = byte :: rest
  := by
  rw [skipSpace_append hbefore, skipSpace_cons h]

mutual

/-- How deep and how far the parser goes for a tree. -/
def Tree.weight : Tree → ℕ
  | .scalar _ => 1
  | .string _ => 1
  | .array elements => 1 + weightElements elements
  | .object members => 1 + weightMembers members

def weightElements : List Tree → ℕ
  | [] => 0
  | element :: elements => 1 + element.weight + weightElements elements

def weightMembers : List (List UInt8 × Tree) → ℕ
  | [] => 0
  | (_, member) :: members => 1 + member.weight + weightMembers members

end

theorem parseValue_array {fuel : ℕ} {rest : List UInt8} :
  parseValue (fuel + 1) (0x5b :: rest) = if (skipSpace rest).head? = some 0x5d then
      some (.array [], (skipSpace rest).tail)
    else (parseElements fuel rest).map fun (elements, rest) => (.array elements, rest)
  := by
  simp [parseValue]

theorem parseValue_object {fuel : ℕ} {rest : List UInt8} :
  parseValue (fuel + 1) (0x7b :: rest) = if (skipSpace rest).head? = some 0x7d then
      some (.object [], (skipSpace rest).tail)
    else (parseMembers fuel rest).map fun (members, rest) => (.object members, rest)
  := by
  simp [parseValue]

/-- The bracket of an array with elements does not stand at its start. -/
theorem head_ne_of_spellsElements {element : Tree} {elements : List Tree}
    {inside rest : List UInt8} (h : SpellsElements (element :: elements) inside) :
  (skipSpace (inside ++ rest)).head? ≠ some 0x5d
  := by
  obtain ⟨before, text, after, hbefore, htext, -, hinside⟩ := h
  obtain ⟨byte, tail, rfl, hbyte, hbracket, -⟩ := htext.head
  have hskip : ∀ behind, skipSpace (before ++ (byte :: tail ++ behind)) = byte :: (tail ++ behind) :=
    fun behind => skipSpace_byte hbefore (isSpace_of_lt hbyte)
  split at hinside
  case isTrue =>
    subst hinside
    simp only [append_assoc, hskip]
    simpa using hbracket
  case isFalse =>
    obtain ⟨others, -, rfl⟩ := hinside
    simp only [append_assoc, hskip]
    simpa using hbracket

theorem head_ne_of_spellsMembers {member : List UInt8 × Tree}
    {members : List (List UInt8 × Tree)} {inside rest : List UInt8}
    (h : SpellsMembers (member :: members) inside) :
  (skipSpace (inside ++ rest)).head? ≠ some 0x7d
  := by
  obtain ⟨before, between, colon, text, after, hbefore, -, -, -, -, -, hinside⟩ := h
  have hskip : ∀ behind, skipSpace (before ++ 0x22 :: behind) = 0x22 :: behind :=
    fun behind => skipSpace_byte hbefore (by decide)
  split at hinside
  case isTrue =>
    subst hinside
    simp only [append_assoc, cons_append, hskip]
    simp
  case isFalse =>
    obtain ⟨others, -, rfl⟩ := hinside
    simp only [append_assoc, cons_append, hskip]
    simp

theorem parseKey_append {before key between rest : List UInt8} (hbefore : Blank before)
    (hkey : isBody key) (hbetween : Blank between) :
  parseKey (before ++ (0x22 :: (key ++ 0x22 :: (between ++ 0x3a :: rest)))) = some (key, rest)
  := by
  have hskip : skipSpace (before ++ (0x22 :: (key ++ 0x22 :: (between ++ 0x3a :: rest))))
      = 0x22 :: (key ++ 0x22 :: (between ++ 0x3a :: rest)) :=
    skipSpace_byte hbefore (by decide)
  have hcolon : skipSpace (between ++ 0x3a :: rest) = 0x3a :: rest :=
    skipSpace_byte hbetween (by decide)
  simp [parseKey, hskip, parseBody_append hkey, hcolon]

mutual

/-- A value is parsed up to what ends it. -/
theorem parseValue_append : ∀ (tree : Tree) {text rest : List UInt8} {fuel : ℕ},
    tree.Spells text → Ends rest → tree.weight ≤ fuel →
  parseValue fuel (text ++ rest) = some (tree, rest)
  | .scalar token, text, rest, fuel, h, hrest, hfuel => by
    obtain ⟨htoken, rfl⟩ := h
    obtain ⟨fuel, rfl⟩ := Nat.exists_eq_add_of_le hfuel
    have hparse := parseScalar_append htoken hrest
    obtain ⟨byte, tail, rfl, hquote, hbracket, hbrace⟩ := isToken_head htoken
    rw [List.cons_append] at hparse
    simp [Tree.weight, Nat.add_comm 1, parseValue, hquote, hbracket, hbrace, hparse]
  | .string body, text, rest, fuel, h, hrest, hfuel => by
    obtain ⟨hbody, rfl⟩ := h
    obtain ⟨fuel, rfl⟩ := Nat.exists_eq_add_of_le hfuel
    simp [Tree.weight, Nat.add_comm 1, parseValue, parseBody_append hbody]
  | .array [], text, rest, fuel, h, hrest, hfuel => by
    obtain ⟨inside, hinside, rfl⟩ := h
    obtain ⟨fuel, rfl⟩ := Nat.exists_eq_add_of_le hfuel
    have hskip : skipSpace (inside ++ 0x5d :: rest) = 0x5d :: rest :=
      skipSpace_byte hinside (by decide)
    simp [Tree.weight, weightElements, Nat.add_comm 1, parseValue_array, hskip]
  | .array (element :: elements), text, rest, fuel, h, hrest, hfuel => by
    obtain ⟨inside, hinside, rfl⟩ := h
    rw [Tree.weight] at hfuel
    obtain ⟨fuel, rfl⟩ : ∃ n, fuel = n + 1 := ⟨fuel - 1, by omega⟩
    have hparse : parseElements fuel (inside ++ 0x5d :: rest) = some (element :: elements, rest) :=
      parseElements_append (element :: elements) (List.cons_ne_nil _ _) hinside (by omega)
    have hhead := @head_ne_of_spellsElements _ _ _ (0x5d :: rest) hinside
    simp only [List.cons_append, List.append_assoc, List.nil_append]
    rw [parseValue_array, if_neg hhead, hparse]
    rfl
  | .object [], text, rest, fuel, h, hrest, hfuel => by
    obtain ⟨inside, hinside, rfl⟩ := h
    obtain ⟨fuel, rfl⟩ := Nat.exists_eq_add_of_le hfuel
    have hskip : skipSpace (inside ++ 0x7d :: rest) = 0x7d :: rest :=
      skipSpace_byte hinside (by decide)
    simp [Tree.weight, weightMembers, Nat.add_comm 1, parseValue_object, hskip]
  | .object (member :: members), text, rest, fuel, h, hrest, hfuel => by
    obtain ⟨inside, hinside, rfl⟩ := h
    rw [Tree.weight] at hfuel
    obtain ⟨fuel, rfl⟩ : ∃ n, fuel = n + 1 := ⟨fuel - 1, by omega⟩
    have hparse : parseMembers fuel (inside ++ 0x7d :: rest) = some (member :: members, rest) :=
      parseMembers_append (member :: members) (List.cons_ne_nil _ _) hinside (by omega)
    have hhead := @head_ne_of_spellsMembers _ _ _ (0x7d :: rest) hinside
    simp only [List.cons_append, List.append_assoc, List.nil_append]
    rw [parseValue_object, if_neg hhead, hparse]
    rfl

theorem parseElements_append : ∀ (elements : List Tree) {inside rest : List UInt8} {fuel : ℕ},
    elements ≠ [] → SpellsElements elements inside → weightElements elements ≤ fuel →
  parseElements fuel (inside ++ 0x5d :: rest) = some (elements, rest)
  | [], _, _, _, hne, _, _ => absurd rfl hne
  | element :: elements, inside, rest, fuel, _, h, hfuel => by
    obtain ⟨before, text, after, hbefore, htext, hafter, hinside⟩ := h
    rw [weightElements] at hfuel
    obtain ⟨fuel, rfl⟩ : ∃ n, fuel = n + 1 := ⟨fuel - 1, by omega⟩
    have hvalue : ∀ {byte : UInt8} {behind : List UInt8}, endsScalar byte →
        parseValue fuel (skipSpace (before ++ (text ++ (after ++ byte :: behind))))
          = some (element, after ++ byte :: behind) := by
      intro byte behind hbyte
      rw [skipSpace_value hbefore htext]
      exact parseValue_append element htext (ends_append hafter hbyte) (by omega)
    split at hinside
    case isTrue hnil =>
      subst hnil hinside
      have hclose : skipSpace (after ++ 0x5d :: rest) = 0x5d :: rest :=
        skipSpace_byte hafter (by decide)
      simp only [List.append_assoc]
      simp [parseElements, @hvalue 0x5d rest (by decide), hclose]
    case isFalse hne =>
      obtain ⟨others, hothers, rfl⟩ := hinside
      have hcomma : ∀ behind, skipSpace (after ++ 0x2c :: behind) = 0x2c :: behind :=
        fun behind => skipSpace_byte hafter (by decide)
      have hparse : parseElements fuel (others ++ 0x5d :: rest) = some (elements, rest) :=
        parseElements_append elements hne hothers (by omega)
      simp only [List.append_assoc, List.cons_append]
      simp [parseElements, @hvalue 0x2c (others ++ 0x5d :: rest) (by decide), hcomma, hparse]

theorem parseMembers_append : ∀ (members : List (List UInt8 × Tree)) {inside rest : List UInt8}
    {fuel : ℕ}, members ≠ [] → SpellsMembers members inside → weightMembers members ≤ fuel →
  parseMembers fuel (inside ++ 0x7d :: rest) = some (members, rest)
  | [], _, _, _, hne, _, _ => absurd rfl hne
  | (key, member) :: members, inside, rest, fuel, _, h, hfuel => by
    obtain ⟨before, between, colon, text, after, hbefore, hkey, hbetween, hcolon, htext, hafter,
      hinside⟩ := h
    rw [weightMembers] at hfuel
    obtain ⟨fuel, rfl⟩ : ∃ n, fuel = n + 1 := ⟨fuel - 1, by omega⟩
    have hvalue : ∀ {byte : UInt8} {behind : List UInt8}, endsScalar byte →
        parseValue fuel (skipSpace (colon ++ (text ++ (after ++ byte :: behind))))
          = some (member, after ++ byte :: behind) := by
      intro byte behind hbyte
      rw [skipSpace_value hcolon htext]
      exact parseValue_append member htext (ends_append hafter hbyte) (by omega)
    split at hinside
    case isTrue hnil =>
      subst hnil hinside
      have hclose : skipSpace (after ++ 0x7d :: rest) = 0x7d :: rest :=
        skipSpace_byte hafter (by decide)
      simp only [List.append_assoc, List.cons_append]
      simp [parseMembers, parseKey_append hbefore hkey hbetween,
        @hvalue 0x7d rest (by decide), hclose]
    case isFalse hne =>
      obtain ⟨others, hothers, rfl⟩ := hinside
      have hcomma : ∀ behind, skipSpace (after ++ 0x2c :: behind) = 0x2c :: behind :=
        fun behind => skipSpace_byte hafter (by decide)
      have hparse : parseMembers fuel (others ++ 0x7d :: rest) = some (members, rest) :=
        parseMembers_append members hne hothers (by omega)
      simp only [List.append_assoc, List.cons_append]
      simp [parseMembers, parseKey_append hbefore hkey hbetween,
        @hvalue 0x2c (others ++ 0x7d :: rest) (by decide), hcomma, hparse]

end

mutual

/-- A text is long enough to parse its tree. -/
theorem weight_lt : ∀ (tree : Tree) {text : List UInt8}, tree.Spells text →
  tree.weight + 1 ≤ 2 * text.length
  | .scalar token, text, h => by
    obtain ⟨htoken, rfl⟩ := h
    obtain ⟨byte, rest, rfl, -⟩ := isToken_head htoken
    simp only [Tree.weight, List.length_cons]
    omega
  | .string body, text, h => by
    obtain ⟨-, rfl⟩ := h
    simp only [Tree.weight, List.length_cons, List.length_append]
    omega
  | .array elements, text, h => by
    obtain ⟨inside, hinside, rfl⟩ := h
    have := weightElements_le elements hinside
    simp [Tree.weight]
    omega
  | .object members, text, h => by
    obtain ⟨inside, hinside, rfl⟩ := h
    have := weightMembers_le members hinside
    simp [Tree.weight]
    omega

theorem weightElements_le : ∀ (elements : List Tree) {inside : List UInt8},
    SpellsElements elements inside →
  weightElements elements ≤ 2 * inside.length
  | [], _, _ => Nat.zero_le _
  | element :: elements, inside, h => by
    obtain ⟨before, text, after, -, htext, -, hinside⟩ := h
    have := weight_lt element htext
    split at hinside
    case isTrue hnil =>
      subst hnil hinside
      simp [weightElements]
      omega
    case isFalse =>
      obtain ⟨others, hothers, rfl⟩ := hinside
      have := weightElements_le elements hothers
      simp [weightElements]
      omega

theorem weightMembers_le : ∀ (members : List (List UInt8 × Tree)) {inside : List UInt8},
    SpellsMembers members inside →
  weightMembers members ≤ 2 * inside.length
  | [], _, _ => Nat.zero_le _
  | (key, member) :: members, inside, h => by
    obtain ⟨before, between, colon, text, after, -, -, -, -, htext, -, hinside⟩ := h
    have := weight_lt member htext
    split at hinside
    case isTrue hnil =>
      subst hnil hinside
      simp [weightMembers]
      omega
    case isFalse =>
      obtain ⟨others, hothers, rfl⟩ := hinside
      have := weightMembers_le members hothers
      simp [weightMembers]
      omega

end

/-- A text is parsed to the tree that it spells. -/
theorem parse_of_spelled {tree : Tree} {text : List UInt8} (h : Spelled tree text) :
  parse text = some tree
  := by
  obtain ⟨before, inside, after, hbefore, hinside, hafter, rfl⟩ := h
  have hweight := weight_lt tree hinside
  have hvalue : parseValue (2 * (before ++ (inside ++ after)).length) (inside ++ after)
      = some (tree, after) := by
    apply parseValue_append tree hinside (ends_of_blank hafter)
    simp only [length_append]
    omega
  have hblank : skipSpace after = [] := by
    rw [← append_nil after, skipSpace_append hafter]
    rfl
  rw [parse, skipSpace_value hbefore hinside, hvalue]
  simp [hblank]

/-! ### Spelling lexemes -/

/-- The code units of a character. -/
def codeUnits (point : ℕ) : List ℕ :=
  if point < 0x10000 then [point]
  else [0xd800 + (point - 0x10000) / 0x400, 0xdc00 + (point - 0x10000) % 0x400]

theorem recombine_cons {unit : ℕ} (h : ¬ (0xd800 ≤ unit ∧ unit < 0xdc00)) (units : List ℕ) :
  recombine (unit :: units) = unit :: recombine units
  := by
  cases units with
  | nil => rfl
  | cons low units =>
    rw [recombine, if_neg]
    rintro ⟨hfrom, hto, -⟩
    exact h ⟨hfrom, hto⟩

/-- The code units of characters are recombined to them. -/
theorem recombine_codeUnits {points : List ℕ}
    (h : ∀ point ∈ points, point ≤ 0x10ffff ∧ ¬ (0xd800 ≤ point ∧ point ≤ 0xdfff)) :
  recombine (points.flatMap codeUnits) = points
  := by
  induction points with
  | nil => rfl
  | cons point points ih =>
    obtain ⟨⟨hmax, hsurrogate⟩, hpoints⟩ := forall_mem_cons.mp h
    rw [flatMap_cons, codeUnits]
    split
    case isTrue hsmall =>
      rw [cons_append, nil_append, recombine_cons (by omega), ih hpoints]
    case isFalse hlarge =>
      have hpair : 0x10000 + (0xd800 + (point - 0x10000) / 0x400 - 0xd800) * 0x400
          + (0xdc00 + (point - 0x10000) % 0x400 - 0xdc00) = point := by
        omega
      rw [cons_append, cons_append, nil_append, recombine, if_pos (by omega),
        hpair, ih hpoints]

section

variable {spell : ℕ → List UInt8} {units : List ℕ}

theorem readUnits_flatMap
    (h : ∀ unit ∈ units, ∀ rest, readUnit (spell unit ++ rest) = some (unit, rest)) {count : ℕ}
    (hcount : units.length ≤ count) :
  readUnits count (units.flatMap spell) = some units
  := by
  induction units generalizing count with
  | nil => cases count <;> rfl
  | cons unit units ih =>
    obtain ⟨hunit, hunits⟩ := forall_mem_cons.mp h
    obtain ⟨count, rfl⟩ : ∃ n, count = n + 1 := ⟨count - 1, by simp at hcount; omega⟩
    have hrest := hunit (units.flatMap spell)
    rw [flatMap_cons]
    cases hspelled : spell unit ++ units.flatMap spell with
    | nil =>
      rw [hspelled] at hrest
      cases hrest
    | cons byte bytes =>
      rw [hspelled] at hrest
      simp [readUnits, hrest, ih hunits (by simpa using hcount)]

theorem length_le_flatMap
    (h : ∀ unit ∈ units, ∀ rest, readUnit (spell unit ++ rest) = some (unit, rest)) :
  units.length ≤ (units.flatMap spell).length
  := by
  induction units with
  | nil => exact Nat.zero_le _
  | cons unit units ih =>
    obtain ⟨hunit, hunits⟩ := forall_mem_cons.mp h
    have hne : spell unit ≠ [] := by
      intro hnil
      have := hunit []
      rw [hnil] at this
      cases this
    have := length_pos_iff.mpr hne
    have := ih hunits
    simp only [flatMap_cons, length_append, length_cons]
    omega

/-- Code units that are each read back make up a body. -/
theorem isBody_flatMap
    (h : ∀ unit ∈ units, ∀ rest, readUnit (spell unit ++ rest) = some (unit, rest)) :
  isBody (units.flatMap spell)
  := by
  rw [isBody, readUnits_flatMap h (length_le_flatMap h)]
  rfl

theorem decodeBody_flatMap
    (h : ∀ unit ∈ units, ∀ rest, readUnit (spell unit ++ rest) = some (unit, rest))
    (hascii : ∀ unit ∈ units, ∀ byte ∈ spell unit, byte < 0x80) :
  decodeBody (units.flatMap spell) = some (recombine units)
  := by
  have hall : (units.flatMap spell).all (· < 0x80) := by
    simp only [all_eq_true, mem_flatMap, decide_eq_true_eq]
    rintro byte ⟨unit, hunit, hbyte⟩
    exact hascii unit hunit byte hbyte
  rw [decodeBody, if_pos hall, readUnits_flatMap h (length_le_flatMap h)]
  rfl

end

/-- Digits without a leading zero. -/
structure Decimal (digits : List UInt8) : Prop where
  digit : digits.all isDigit
  nonempty : digits ≠ []
  leading : digits.head? = some 0x30 → digits.length = 1

theorem integerPart_decimal {digits : List UInt8} (h : Decimal digits) :
  integerPart digits = some (digits, [])
  := by
  have hdigit := all_eq_true.mp h.digit
  have htake : digits.takeWhile isDigit = digits := takeWhile_eq_self_iff.mpr hdigit
  have hdrop : digits.dropWhile isDigit = [] := dropWhile_eq_nil_iff.mpr hdigit
  rw [integerPart]
  simp only [htake, hdrop]
  rw [if_neg]
  rintro (hnil | ⟨hzero, hlength⟩)
  · exact h.nonempty hnil
  · exact hlength (h.leading hzero)

theorem numberValue_decimal {digits : List UInt8} (h : Decimal digits) :
  numberValue digits = some (digitsValue digits : ℚ)
  := by
  have hsign : signPart digits = (1, digits) := by
    cases digits with
    | nil => rfl
    | cons digit digits =>
      rw [signPart, if_neg]
      rintro rfl
      exact absurd (all_eq_true.mp h.digit 0x2d mem_cons_self) (by decide)
  simp [numberValue, hsign, integerPart_decimal h, fractionPart, exponentPart]

theorem numberValue_negative {digits : List UInt8} (h : Decimal digits) :
  numberValue (0x2d :: digits) = some (-(digitsValue digits : ℚ))
  := by
  simp [numberValue, signPart, integerPart_decimal h, fractionPart, exponentPart]

/-- A number is no name. -/
theorem scalarValue_number {σ : Type} {token : List UInt8} {value : ℚ}
    (h : numberValue token = some value) :
  @scalarValue σ token = some (.number value)
  := by
  obtain ⟨-, hnumber⟩ := numberValue_spec h
  have hname : ∀ name : List UInt8, name.head?.all (!isNumberByte ·) → name ≠ [] → token ≠ name := by
    rintro name hhead hne rfl
    obtain ⟨byte, rest, rfl⟩ := exists_cons_of_ne_nil hne
    have := hnumber byte mem_cons_self
    simp [this] at hhead
  rw [scalarValue, if_neg (hname kNull (by decide) (by decide)),
    if_neg (hname kTrue (by decide) (by decide)), if_neg (hname kFalse (by decide) (by decide)), h]
  rfl

end Json
