import Mathlib.Algebra.Field.Rat
import Mathlib.Data.List.TakeWhile

/-!
# JSON texts

The syntax of a text is a tree with the tokens of its scalars and the bodies of its strings as
they are written.  A tree is spelled by the texts that differ in white space, and the parser
reads each of them to the tree.  What a tree of ASCII says is its value: the numbers, and the
characters of the strings with surrogate pairs recombined.
-/

namespace Json

open List Option

/-! ### Syntax -/

/-- What a text says, as it is written. -/
inductive Tree
  | scalar (token : List UInt8)
  | string (body : List UInt8)
  | array (elements : List Tree)
  | object (members : List (List UInt8 × Tree))

/-- What a text means.  Strings are of any type. -/
inductive Value (σ : Type)
  | null
  | bool (value : Bool)
  | number (value : ℚ)
  | string (text : σ)
  | array (elements : List (Value σ))
  | object (members : List (σ × Value σ))

section

variable {σ τ : Type} (f : σ → τ) (P : σ → Prop)

mutual

/-- The same value with its strings changed. -/
def Value.map : Value σ → Value τ
  | .null => .null
  | .bool value => .bool value
  | .number value => .number value
  | .string text => .string (f text)
  | .array elements => .array (mapElements elements)
  | .object members => .object (mapMembers members)

def mapElements : List (Value σ) → List (Value τ)
  | [] => []
  | element :: elements => element.map :: mapElements elements

def mapMembers : List (σ × Value σ) → List (τ × Value τ)
  | [] => []
  | (key, member) :: members => (f key, member.map) :: mapMembers members

end

mutual

/-- What holds of the strings of a value. -/
def Value.All : Value σ → Prop
  | .null => True
  | .bool _ => True
  | .number _ => True
  | .string text => P text
  | .array elements => AllElements elements
  | .object members => AllMembers members

def AllElements : List (Value σ) → Prop
  | [] => True
  | element :: elements => element.All ∧ AllElements elements

def AllMembers : List (σ × Value σ) → Prop
  | [] => True
  | (key, member) :: members => P key ∧ member.All ∧ AllMembers members

end

variable {f P}

mutual

/-- A change that can be undone on its strings can be undone on a value. -/
theorem Value.map_injOn (hf : ∀ a b, P a → P b → f a = f b → a = b) :
    ∀ {value other : Value σ}, value.All P → other.All P →
    value.map f = other.map f →
  value = other
  | .null, other, _, _, h => by
    cases other <;> first | rfl | cases h
  | .bool _, other, _, _, h => by
    cases other <;> first | cases h; rfl | cases h
  | .number _, other, _, _, h => by
    cases other <;> first | cases h; rfl | cases h
  | .string text, other, hP, hother, h => by
    cases other <;> try cases h
    rw [hf _ _ hP hother (Value.string.inj h)]
  | .array elements, other, hP, hother, h => by
    cases other <;> try cases h
    rw [mapElements_injOn hf hP hother (Value.array.inj h)]
  | .object members, other, hP, hother, h => by
    cases other <;> try cases h
    rw [mapMembers_injOn hf hP hother (Value.object.inj h)]

theorem mapElements_injOn (hf : ∀ a b, P a → P b → f a = f b → a = b) :
    ∀ {elements others : List (Value σ)}, AllElements P elements → AllElements P others → mapElements f elements = mapElements f others →
  elements = others
  | [], others, _, _, h => by
    cases others with
    | nil => rfl
    | cons other others => cases h
  | element :: elements, others, hP, hother, h => by
    cases others with
    | nil => cases h
    | cons other others =>
      obtain ⟨hhead, htail⟩ := List.cons.inj h
      rw [Value.map_injOn hf hP.1 hother.1 hhead, mapElements_injOn hf hP.2 hother.2 htail]

theorem mapMembers_injOn (hf : ∀ a b, P a → P b → f a = f b → a = b) :
    ∀ {members others : List (σ × Value σ)}, AllMembers P members → AllMembers P others → mapMembers f members = mapMembers f others →
  members = others
  | [], others, _, _, h => by
    cases others with
    | nil => rfl
    | cons other others => cases h
  | (key, member) :: members, others, hP, hother, h => by
    cases others with
    | nil => cases h
    | cons other others =>
      obtain ⟨otherKey, other⟩ := other
      obtain ⟨hhead, htail⟩ := List.cons.inj h
      obtain ⟨hkey, hmember⟩ := Prod.mk.inj hhead
      rw [hf _ _ hP.1 hother.1 hkey, Value.map_injOn hf hP.2.1 hother.2.1 hmember,
        mapMembers_injOn hf hP.2.2 hother.2.2 htail]

end

end

def isSpace (byte : UInt8) : Bool :=
  byte = 0x20 || byte = 0x0a || byte = 0x0d || byte = 0x09

def isDigit (byte : UInt8) : Bool :=
  0x30 ≤ byte && byte ≤ 0x39

/-- The value of a hexadecimal digit. -/
def hexValue (byte : UInt8) : Option ℕ :=
  if isDigit byte then some (byte.toNat - 0x30)
  else if 0x61 ≤ byte && byte ≤ 0x66 then some (byte.toNat - 0x61 + 10)
  else if 0x41 ≤ byte && byte ≤ 0x46 then some (byte.toNat - 0x41 + 10)
  else none

/-! ### Strings -/

/-- The code unit of a two-character escape. -/
def shortEscape (byte : UInt8) : Option ℕ :=
  if byte = 0x22 then some 0x22
  else if byte = 0x5c then some 0x5c
  else if byte = 0x2f then some 0x2f
  else if byte = 0x62 then some 0x08
  else if byte = 0x66 then some 0x0c
  else if byte = 0x6e then some 0x0a
  else if byte = 0x72 then some 0x0d
  else if byte = 0x74 then some 0x09
  else none

/-- Four hexadecimal digits. -/
def readHex : List UInt8 → Option (ℕ × List UInt8)
  | a :: b :: c :: d :: rest => do
    let a ← hexValue a
    let b ← hexValue b
    let c ← hexValue c
    let d ← hexValue d
    return (((a * 16 + b) * 16 + c) * 16 + d, rest)
  | _ => none

/-- The code unit that the body of a string begins with, and the body behind it.  A byte beyond
ASCII is passed by. -/
def readUnit : List UInt8 → Option (ℕ × List UInt8)
  | [] => none
  | byte :: rest =>
    if byte = 0x5c then
      match rest with
      | [] => none
      | escape :: rest =>
        if escape = 0x75 then readHex rest
        else (shortEscape escape).map fun unit => (unit, rest)
    else if byte < 0x20 ∨ byte = 0x22 then none
    else some (byte.toNat, rest)

/-- The code units of a body, at most the given number. -/
def readUnits : ℕ → List UInt8 → Option (List ℕ)
  | _, [] => some []
  | 0, _ :: _ => none
  | count + 1, byte :: body =>
    match readUnit (byte :: body) with
    | none => none
    | some (unit, rest) => (readUnits count rest).map (unit :: ·)

/-- Whether a string may have a body. -/
def isBody (body : List UInt8) : Bool :=
  (readUnits body.length body).isSome

/-- Code units with the surrogate pairs among them recombined. -/
def recombine : List ℕ → List ℕ
  | [] => []
  | [unit] => [unit]
  | high :: low :: rest =>
    if 0xd800 ≤ high ∧ high < 0xdc00 ∧ 0xdc00 ≤ low ∧ low < 0xe000 then
      (0x10000 + (high - 0xd800) * 0x400 + (low - 0xdc00)) :: recombine rest
    else high :: recombine (low :: rest)

/-- The characters of a body in ASCII. -/
def decodeBody (body : List UInt8) : Option (List ℕ) :=
  if body.all (· < 0x80) then (readUnits body.length body).map recombine else none

/-! ### Scalars -/

def kNull : List UInt8 := [0x6e, 0x75, 0x6c, 0x6c]

def kTrue : List UInt8 := [0x74, 0x72, 0x75, 0x65]

def kFalse : List UInt8 := [0x66, 0x61, 0x6c, 0x73, 0x65]

def digitsValue (digits : List UInt8) : ℕ :=
  digits.foldl (fun value digit => 10 * value + (digit.toNat - 0x30)) 0

/-- The sign of a number, and what follows it. -/
def signPart : List UInt8 → ℚ × List UInt8
  | [] => (1, [])
  | byte :: rest => if byte = 0x2d then (-1, rest) else (1, byte :: rest)

/-- The digits of the integer part, and what follows them. -/
def integerPart (bytes : List UInt8) : Option (List UInt8 × List UInt8) :=
  let digits := bytes.takeWhile isDigit
  if digits = [] ∨ digits.head? = some 0x30 ∧ digits.length ≠ 1 then none
  else some (digits, bytes.dropWhile isDigit)

/-- The digits of the fraction, if there is one. -/
def fractionPart : List UInt8 → Option (List UInt8 × List UInt8)
  | [] => some ([], [])
  | byte :: rest =>
    if byte = 0x2e then
      if rest.takeWhile isDigit = [] then none
      else some (rest.takeWhile isDigit, rest.dropWhile isDigit)
    else some ([], byte :: rest)

/-- The digits of an exponent, behind its sign. -/
def exponentDigits : List UInt8 → List UInt8
  | [] => []
  | sign :: digits => if sign = 0x2b ∨ sign = 0x2d then digits else sign :: digits

/-- The exponent at the end. -/
def exponentPart : List UInt8 → Option ℤ
  | [] => some 0
  | byte :: rest =>
    if byte = 0x65 ∨ byte = 0x45 then
      if exponentDigits rest = [] ∨ !(exponentDigits rest).all isDigit then none
      else if rest.head? = some 0x2d then some (-digitsValue (exponentDigits rest))
      else some (digitsValue (exponentDigits rest))
    else none

/-- The value of a number. -/
def numberValue (token : List UInt8) : Option ℚ := do
  let (sign, bytes) := signPart token
  let (integer, bytes) ← integerPart bytes
  let (fraction, bytes) ← fractionPart bytes
  let exponent ← exponentPart bytes
  return sign * digitsValue (integer ++ fraction) * 10 ^ (exponent - fraction.length)

/-- The value of a scalar. -/
def scalarValue {σ : Type} (token : List UInt8) : Option (Value σ) :=
  if token = kNull then some .null
  else if token = kTrue then some (.bool true)
  else if token = kFalse then some (.bool false)
  else (numberValue token).map .number

/-- Whether a token is a scalar. -/
def isToken (token : List UInt8) : Bool :=
  (@scalarValue Unit token).isSome

/-! ### Values -/

mutual

/-- What a tree means. -/
def Tree.value : Tree → Option (Value (List ℕ))
  | .scalar token => scalarValue token
  | .string body => (decodeBody body).map .string
  | .array elements => (elementValues elements).map .array
  | .object members => (memberValues members).map .object

def elementValues : List Tree → Option (List (Value (List ℕ)))
  | [] => some []
  | element :: elements => do
    let value ← element.value
    let values ← elementValues elements
    return value :: values

def memberValues : List (List UInt8 × Tree) → Option (List (List ℕ × Value (List ℕ)))
  | [] => some []
  | (key, member) :: members => do
    let key ← decodeBody key
    let value ← member.value
    let values ← memberValues members
    return (key, value) :: values

end

/-! ### Texts -/

/-- White space. -/
def Blank (text : List UInt8) : Prop :=
  text.all isSpace

mutual

/-- The texts of a tree. -/
def Tree.Spells : Tree → List UInt8 → Prop
  | .scalar token, text => isToken token ∧ text = token
  | .string body, text => isBody body ∧ text = 0x22 :: (body ++ [0x22])
  | .array elements, text =>
    ∃ inside, SpellsElements elements inside ∧ text = 0x5b :: (inside ++ [0x5d])
  | .object members, text =>
    ∃ inside, SpellsMembers members inside ∧ text = 0x7b :: (inside ++ [0x7d])

/-- The texts of the elements of an array, between its brackets. -/
def SpellsElements : List Tree → List UInt8 → Prop
  | [], inside => Blank inside
  | element :: elements, inside =>
    ∃ before text after, Blank before ∧ element.Spells text ∧ Blank after ∧
      if elements = [] then inside = before ++ (text ++ after)
      else ∃ rest, SpellsElements elements rest ∧
        inside = before ++ (text ++ (after ++ 0x2c :: rest))

/-- The texts of the members of an object, between its braces. -/
def SpellsMembers : List (List UInt8 × Tree) → List UInt8 → Prop
  | [], inside => Blank inside
  | (key, member) :: members, inside =>
    ∃ before between colon text after, Blank before ∧ isBody key ∧ Blank between ∧
      Blank colon ∧ member.Spells text ∧ Blank after ∧
      if members = [] then
        inside = before ++ (0x22 :: (key ++ 0x22 :: (between ++ 0x3a :: (colon ++
          (text ++ after)))))
      else ∃ rest, SpellsMembers members rest ∧
        inside = before ++ (0x22 :: (key ++ 0x22 :: (between ++ 0x3a :: (colon ++
          (text ++ (after ++ 0x2c :: rest))))))

end

/-- A tree spelled by a text, with white space around it. -/
def Spelled (tree : Tree) (text : List UInt8) : Prop :=
  ∃ before inside after, Blank before ∧ tree.Spells inside ∧ Blank after ∧
    text = before ++ (inside ++ after)

/-! ### The parser -/

def skipSpace (text : List UInt8) : List UInt8 :=
  text.dropWhile isSpace

/-- The text before the next quotation mark that is not escaped, and that behind it. -/
def scanBody : List UInt8 → Option (List UInt8 × List UInt8)
  | [] => none
  | byte :: rest =>
    if byte = 0x22 then some ([], rest)
    else if byte = 0x5c then
      match rest with
      | [] => none
      | escaped :: rest =>
        (scanBody rest).map fun (body, after) => (byte :: escaped :: body, after)
    else (scanBody rest).map fun (body, after) => (byte :: body, after)

/-- The string behind a quotation mark. -/
def parseBody (text : List UInt8) : Option (List UInt8 × List UInt8) := do
  let (body, rest) ← scanBody text
  if isBody body then some (body, rest) else none

/-- Whether a byte ends a scalar. -/
def endsScalar (byte : UInt8) : Bool :=
  byte = 0x2c || byte = 0x5d || byte = 0x7d || isSpace byte

def parseScalar (text : List UInt8) : Option (List UInt8 × List UInt8) :=
  let token := text.takeWhile (!endsScalar ·)
  if isToken token then some (token, text.dropWhile (!endsScalar ·)) else none

/-- A key and the colon behind it, and the text behind these. -/
def parseKey (text : List UInt8) : Option (List UInt8 × List UInt8) :=
  if (skipSpace text).head? = some 0x22 then
    match parseBody (skipSpace text).tail with
    | none => none
    | some (key, rest) =>
      if (skipSpace rest).head? = some 0x3a then some (key, (skipSpace rest).tail) else none
  else none

mutual

/-- The value that a text begins with, and the text behind it. -/
def parseValue : ℕ → List UInt8 → Option (Tree × List UInt8)
  | 0, _ => none
  | _ + 1, [] => none
  | fuel + 1, byte :: rest =>
    if byte = 0x22 then (parseBody rest).map fun (body, rest) => (.string body, rest)
    else if byte = 0x5b then
      if (skipSpace rest).head? = some 0x5d then some (.array [], (skipSpace rest).tail)
      else (parseElements fuel rest).map fun (elements, rest) => (.array elements, rest)
    else if byte = 0x7b then
      if (skipSpace rest).head? = some 0x7d then some (.object [], (skipSpace rest).tail)
      else (parseMembers fuel rest).map fun (members, rest) => (.object members, rest)
    else (parseScalar (byte :: rest)).map fun (token, rest) => (.scalar token, rest)

/-- The elements of an array up to its bracket, and the text behind it. -/
def parseElements : ℕ → List UInt8 → Option (List Tree × List UInt8)
  | 0, _ => none
  | fuel + 1, text =>
    match parseValue fuel (skipSpace text) with
    | none => none
    | some (element, rest) =>
      if (skipSpace rest).head? = some 0x2c then
        (parseElements fuel (skipSpace rest).tail).map fun (elements, rest) =>
          (element :: elements, rest)
      else if (skipSpace rest).head? = some 0x5d then some ([element], (skipSpace rest).tail)
      else none

/-- The members of an object up to its brace, and the text behind it. -/
def parseMembers : ℕ → List UInt8 → Option (List (List UInt8 × Tree) × List UInt8)
  | 0, _ => none
  | fuel + 1, text =>
    match parseKey text with
    | none => none
    | some (key, rest) =>
      match parseValue fuel (skipSpace rest) with
      | none => none
      | some (member, rest) =>
        if (skipSpace rest).head? = some 0x2c then
          (parseMembers fuel (skipSpace rest).tail).map fun (members, rest) =>
            ((key, member) :: members, rest)
        else if (skipSpace rest).head? = some 0x7d then
          some ([(key, member)], (skipSpace rest).tail)
        else none

end

/-- The tree of a text. -/
def parse (text : List UInt8) : Option Tree := do
  let (tree, rest) ← parseValue (2 * text.length) (skipSpace text)
  if skipSpace rest = [] then some tree else none

/-- The value of a text. -/
def read (text : List UInt8) : Option (Value (List ℕ)) :=
  (parse text).bind Tree.value

/-! ### Lexemes -/

theorem skipSpace_append {blank text : List UInt8} (h : Blank blank) :
  skipSpace (blank ++ text) = skipSpace text
  := by
  apply dropWhile_append_of_pos
  simpa [Blank] using h

variable {byte : UInt8}

theorem skipSpace_cons {text : List UInt8} (h : isSpace byte = false) :
  skipSpace (byte :: text) = byte :: text
  := by
  simp [skipSpace, h]

@[simp]
theorem scanBody_quote (rest : List UInt8) :
  scanBody (0x22 :: rest) = some ([], rest)
  := by
  cases rest <;> simp [scanBody]

@[simp]
theorem scanBody_escape (escaped : UInt8) (rest : List UInt8) :
  scanBody (0x5c :: escaped :: rest)
    = (scanBody rest).map fun (body, after) => (0x5c :: escaped :: body, after)
  := by
  simp [scanBody]

theorem scanBody_plain (hquote : byte ≠ 0x22) (hescape : byte ≠ 0x5c) (rest : List UInt8) :
  scanBody (byte :: rest) = (scanBody rest).map fun (body, after) => (byte :: body, after)
  := by
  cases rest <;> simp [scanBody, hquote, hescape]

theorem not_quote_of_hexValue {value : ℕ} (h : hexValue byte = some value) :
  byte ≠ 0x22 ∧ byte ≠ 0x5c
  := by
  constructor
  all_goals
    rintro rfl
    cases h

/-- What a unit takes from a body is scanned with it. -/
theorem scanBody_of_readUnit {body tail rest : List UInt8} {unit : ℕ}
    (h : readUnit (byte :: body) = some (unit, tail)) {inside : List UInt8}
    (hscan : scanBody (tail ++ 0x22 :: rest) = some (inside, rest)) (hinside : inside = tail) :
  scanBody (byte :: body ++ 0x22 :: rest) = some (byte :: body, rest)
  := by
  subst hinside
  by_cases hescape : byte = 0x5c
  · subst hescape
    cases body with
    | nil => simp [readUnit] at h
    | cons escape body =>
      by_cases hu : escape = 0x75
      · subst hu
        rcases body with _ | ⟨a, _ | ⟨b, _ | ⟨c, _ | ⟨d, body⟩⟩⟩⟩
        case cons.cons.cons.cons =>
          simp [readUnit, readHex, bind_eq_some_iff] at h
          obtain ⟨_, ha, _, hb, _, hc, _, hd, -, rfl⟩ := h
          have ha := not_quote_of_hexValue ha
          have hb := not_quote_of_hexValue hb
          have hc := not_quote_of_hexValue hc
          have hd := not_quote_of_hexValue hd
          simp [scanBody_plain, ha, hb, hc, hd, hscan]
        all_goals simp [readUnit, readHex] at h
      · simp [readUnit, hu] at h
        obtain ⟨-, rfl⟩ := h.2
        simp [hscan]
  · simp [readUnit, hescape] at h
    obtain ⟨⟨-, hquote⟩, -, rfl⟩ := h
    simp [scanBody_plain hquote hescape, hscan]

theorem scanBody_of_readUnits {count : ℕ} {body rest : List UInt8} {units : List ℕ}
    (h : readUnits count body = some units) :
  scanBody (body ++ 0x22 :: rest) = some (body, rest)
  := by
  induction count generalizing body units with
  | zero =>
    cases body with
    | nil => simp
    | cons byte body => simp [readUnits] at h
  | succ count ih =>
    cases body with
    | nil => simp
    | cons byte body =>
      rw [readUnits] at h
      cases hunit : readUnit (byte :: body) with
      | none => simp [hunit] at h
      | some found =>
        obtain ⟨unit, tail⟩ := found
        simp only [hunit, map_eq_some_iff] at h
        obtain ⟨others, hothers, -⟩ := h
        exact scanBody_of_readUnit hunit (ih hothers) rfl

/-- The body of a string is scanned up to the quotation mark behind it. -/
theorem scanBody_append {body rest : List UInt8} (h : isBody body) :
  scanBody (body ++ 0x22 :: rest) = some (body, rest)
  := by
  obtain ⟨units, hunits⟩ := isSome_iff_exists.mp h
  exact scanBody_of_readUnits hunits

def isNumberByte (byte : UInt8) : Bool :=
  isDigit byte || byte = 0x2d || byte = 0x2b || byte = 0x2e || byte = 0x65 || byte = 0x45

theorem endsScalar_of_isNumberByte (h : isNumberByte byte) :
  endsScalar byte = false
  := by
  by_contra hends
  simp only [endsScalar, isSpace, Bool.not_eq_false, Bool.or_eq_true, decide_eq_true_eq] at hends
  rcases hends with ((rfl | rfl) | rfl) | ((rfl | rfl) | rfl) | rfl
  all_goals exact absurd h (by decide)

theorem isNumberByte_of_isDigit (h : isDigit byte) :
  isNumberByte byte
  := by
  simp [isNumberByte, h]

theorem integerPart_spec {bytes digits rest : List UInt8}
    (h : integerPart bytes = some (digits, rest)) :
  bytes = digits ++ rest ∧ digits ≠ [] ∧ ∀ byte ∈ digits, isNumberByte byte
  := by
  unfold integerPart at h
  dsimp only at h
  split at h
  case isTrue => cases h
  case isFalse hdigits =>
    obtain ⟨rfl, rfl⟩ := by simpa using h
    refine ⟨takeWhile_append_dropWhile.symm, fun hnil => hdigits (.inl hnil), ?_⟩
    intro byte hbyte
    exact isNumberByte_of_isDigit (mem_takeWhile_imp hbyte)

theorem fractionPart_spec {bytes digits rest : List UInt8}
    (h : fractionPart bytes = some (digits, rest)) :
  ∃ before, bytes = before ++ rest ∧ ∀ byte ∈ before, isNumberByte byte
  := by
  cases bytes with
  | nil =>
    obtain ⟨rfl, rfl⟩ := by simpa [fractionPart] using h
    exact ⟨[], rfl, by simp⟩
  | cons byte bytes =>
    rw [fractionPart] at h
    by_cases hpoint : byte = 0x2e
    · rw [if_pos hpoint] at h
      split at h
      case isTrue => cases h
      case isFalse =>
        obtain ⟨rfl, rfl⟩ := by simpa using h
        refine ⟨byte :: bytes.takeWhile isDigit, by simp, ?_⟩
        intro digit hdigit
        rcases mem_cons.mp hdigit with rfl | hdigit
        · subst hpoint
          decide
        · exact isNumberByte_of_isDigit (mem_takeWhile_imp hdigit)
    · rw [if_neg hpoint] at h
      obtain ⟨rfl, rfl⟩ := by simpa using h
      exact ⟨[], rfl, by simp⟩

theorem mem_exponentDigits {rest : List UInt8} (h : byte ∈ rest) :
  byte = 0x2b ∨ byte = 0x2d ∨ byte ∈ exponentDigits rest
  := by
  cases rest with
  | nil => cases h
  | cons sign digits =>
    rw [exponentDigits]
    split
    case isTrue hsign =>
      rcases mem_cons.mp h with rfl | h
      · rcases hsign with rfl | rfl
        · exact .inl rfl
        · exact .inr (.inl rfl)
      · exact .inr (.inr h)
    case isFalse => exact .inr (.inr h)

theorem exponentPart_spec {bytes : List UInt8} {exponent : ℤ}
    (h : exponentPart bytes = some exponent) (hbyte : byte ∈ bytes) :
  isNumberByte byte
  := by
  cases bytes with
  | nil => cases hbyte
  | cons letter rest =>
    rw [exponentPart] at h
    split at h
    case isFalse => cases h
    case isTrue hletter =>
      split at h
      case isTrue => cases h
      case isFalse hdigits =>
        rcases mem_cons.mp hbyte with rfl | hbyte
        · rcases hletter with rfl | rfl
          all_goals decide
        · rcases mem_exponentDigits hbyte with rfl | rfl | hbyte
          · decide
          · decide
          · have hall : (exponentDigits rest).all isDigit := by
              by_contra hall
              exact hdigits (.inr (by simpa using hall))
            exact isNumberByte_of_isDigit (all_eq_true.mp hall byte hbyte)

variable {token : List UInt8}

theorem numberValue_spec {value : ℚ} (h : numberValue token = some value) :
  token ≠ [] ∧ ∀ byte ∈ token, isNumberByte byte
  := by
  simp only [numberValue, bind_eq_bind, bind_eq_some_iff, Option.pure_def] at h
  obtain ⟨⟨integer, rest⟩, hinteger, ⟨fraction, rest'⟩, hfraction, exponent, hexponent, -⟩ := h
  obtain ⟨hbytes, hne, hdigits⟩ := integerPart_spec hinteger
  obtain ⟨before, rfl, hbefore⟩ := fractionPart_spec hfraction
  have hrest : ∀ byte ∈ integer ++ (before ++ rest'), isNumberByte byte := by
    intro byte hbyte
    rcases mem_append.mp hbyte with hbyte | hbyte
    · exact hdigits byte hbyte
    · rcases mem_append.mp hbyte with hbyte | hbyte
      · exact hbefore byte hbyte
      · exact exponentPart_spec hexponent hbyte
  rw [← hbytes] at hrest
  cases token with
  | nil =>
    simp only [signPart, nil_eq_append_iff] at hbytes
    exact absurd hbytes.1 hne
  | cons byte token =>
    refine ⟨cons_ne_nil _ _, ?_⟩
    rw [signPart] at hrest
    split at hrest
    case isTrue hsign =>
      subst hsign
      exact forall_mem_cons.mpr ⟨by decide, hrest⟩
    case isFalse => exact hrest

/-- The bytes of a token are letters of the names or bytes of a number. -/
theorem isToken_spec (h : isToken token) :
  token = kNull ∨ token = kTrue ∨ token = kFalse ∨
    (token ≠ [] ∧ ∀ byte ∈ token, isNumberByte byte)
  := by
  unfold isToken scalarValue at h
  split at h
  case isTrue hnull => exact .inl hnull
  case isFalse =>
    split at h
    case isTrue htrue => exact .inr (.inl htrue)
    case isFalse =>
      split at h
      case isTrue hfalse => exact .inr (.inr (.inl hfalse))
      case isFalse =>
        rw [isSome_map] at h
        obtain ⟨value, hvalue⟩ := isSome_iff_exists.mp h
        exact .inr (.inr (.inr (numberValue_spec hvalue)))

/-- No byte of a token ends it. -/
theorem endsScalar_of_isToken (h : isToken token) (hbyte : byte ∈ token) :
  endsScalar byte = false
  := by
  have literal : ∀ token ∈ [kNull, kTrue, kFalse], token.all (fun byte => !endsScalar byte) := by
    decide
  rcases isToken_spec h with rfl | rfl | rfl | ⟨-, hnumber⟩
  · simpa using all_eq_true.mp (literal kNull (by simp)) byte hbyte
  · simpa using all_eq_true.mp (literal kTrue (by simp)) byte hbyte
  · simpa using all_eq_true.mp (literal kFalse (by simp)) byte hbyte
  · exact endsScalar_of_isNumberByte (hnumber byte hbyte)

/-- The bytes of a token are visible. -/
theorem lt_of_isToken (h : isToken token) (hbyte : byte ∈ token) :
  0x20 < byte
  := by
  have literal : ∀ token ∈ [kNull, kTrue, kFalse], token.all (fun byte => 0x20 < byte) := by
    decide
  rcases isToken_spec h with rfl | rfl | rfl | ⟨-, hnumber⟩
  · simpa using all_eq_true.mp (literal kNull (by simp)) byte hbyte
  · simpa using all_eq_true.mp (literal kTrue (by simp)) byte hbyte
  · simpa using all_eq_true.mp (literal kFalse (by simp)) byte hbyte
  · have h := hnumber byte hbyte
    simp only [isNumberByte, isDigit, Bool.or_eq_true, Bool.and_eq_true, decide_eq_true_eq] at h
    rcases h with ((((⟨hdigit, -⟩ | rfl) | rfl) | rfl) | rfl) | rfl
    · exact UInt8.lt_of_lt_of_le (by decide) hdigit
    all_goals decide

/-- A token begins like no other value. -/
theorem isToken_head (h : isToken token) :
  ∃ byte rest, token = byte :: rest ∧ byte ≠ 0x22 ∧ byte ≠ 0x5b ∧ byte ≠ 0x7b
  := by
  rcases isToken_spec h with rfl | rfl | rfl | ⟨hne, hnumber⟩
  · exact ⟨_, _, rfl, by decide, by decide, by decide⟩
  · exact ⟨_, _, rfl, by decide, by decide, by decide⟩
  · exact ⟨_, _, rfl, by decide, by decide, by decide⟩
  · obtain ⟨byte, rest, rfl⟩ := exists_cons_of_ne_nil hne
    have hbyte := hnumber byte mem_cons_self
    refine ⟨byte, rest, rfl, ?_, ?_, ?_⟩
    all_goals
      rintro rfl
      exact absurd hbyte (by decide)

end Json
