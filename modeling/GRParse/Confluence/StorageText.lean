import Mathlib

/-!
# Text of the storage format

The bytes that separate names, the letters in lower case, and the references that texts and
attribute values hold.  A reference is decoded if its semicolon is among the next sixteen bytes,
and what is no reference is kept.
-/

namespace GRParse.Confluence

open List Option

/-! ### Bytes -/

def isSpace (letter : UInt8) : Bool :=
  letter = 0x20 || letter = 0x09 || letter = 0x0a || letter = 0x0d || letter = 0x0c || letter = 0x0b

/-- A letter in lower case, as `std::tolower` has it. -/
def lowerLetter (letter : UInt8) : UInt8 :=
  if 0x41 ≤ letter ∧ letter ≤ 0x5a then letter + 0x20 else letter

def lowercase (value : List UInt8) : List UInt8 :=
  value.map lowerLetter

/-- `append_code_point`. -/
def codePointBytes (codePoint : ℕ) : List UInt8 :=
  let continuation (shift : ℕ) : UInt8 := .ofNat (0x80 + codePoint / 2 ^ shift % 0x40)
  if codePoint < 0x80 then [.ofNat codePoint]
  else if codePoint < 0x800 then [.ofNat (0xc0 + codePoint / 2 ^ 6), continuation 0]
  else if codePoint < 0x10000 then
    [.ofNat (0xe0 + codePoint / 2 ^ 12), continuation 6, continuation 0]
  else [.ofNat (0xf0 + codePoint / 2 ^ 18), continuation 12, continuation 6, continuation 0]

/-! ### References -/

/-- The names `amp`, `lt`, `gt`, `quot`, `apos` and `nbsp`. -/
def kAmp : List UInt8 := [0x61, 0x6d, 0x70]
def kLt : List UInt8 := [0x6c, 0x74]
def kGt : List UInt8 := [0x67, 0x74]
def kQuot : List UInt8 := [0x71, 0x75, 0x6f, 0x74]
def kApos : List UInt8 := [0x61, 0x70, 0x6f, 0x73]
def kNbsp : List UInt8 := [0x6e, 0x62, 0x73, 0x70]

/-- What `append_named_entity` appends. -/
def namedEntity (name : List UInt8) : Option (List UInt8) :=
  if name = kAmp then some [0x26]
  else if name = kLt then some [0x3c]
  else if name = kGt then some [0x3e]
  else if name = kQuot then some [0x22]
  else if name = kApos then some [0x27]
  else if name = kNbsp then some (codePointBytes 0xa0)
  else none

/-- The value of a digit. -/
def digitPlace (hex : Bool) (digit : UInt8) : Option ℕ :=
  if 0x30 ≤ digit ∧ digit ≤ 0x39 then some (digit.toNat - 0x30)
  else if hex then
    let lower := lowerLetter digit
    if 0x61 ≤ lower ∧ lower ≤ 0x66 then some (lower.toNat - 0x61 + 10) else none
  else none

/-- The loop of `numeric_entity_value` over the digits. -/
def digitsValue (hex : Bool) : ℕ → List UInt8 → Option ℕ
  | value, [] => some value
  | value, digit :: digits =>
    match digitPlace hex digit with
    | none => none
    | some place =>
      let value := value * (if hex then 16 else 10) + place
      if 0x10ffff < value then none else digitsValue hex value digits

/-- `numeric_entity_value`, of a name that begins with `#` and is longer. -/
def numericEntityValue (name : List UInt8) : Option ℕ :=
  let hex : Bool := name.getD 1 0 = 0x78 || name.getD 1 0 = 0x58
  let digits := name.drop (if hex then 2 else 1)
  if digits = [] then none
  else
    (digitsValue hex 0 digits).filter fun value =>
      value ≠ 0 && !(0xd800 ≤ value && value ≤ 0xdfff)

/-- What `append_entity` appends. -/
def entityText (name : List UInt8) : Option (List UInt8) :=
  match namedEntity name with
  | some text => some text
  | none =>
    if name.length ≤ 1 ∨ name.head? ≠ some 0x23 then none
    else (numericEntityValue name).map codePointBytes

def decodeEntities : List UInt8 → List UInt8
  | [] => []
  | letter :: rest =>
    if letter ≠ 0x26 then letter :: decodeEntities rest
    else
      match (rest.take 16).findIdx? (· = 0x3b) with
      | none => letter :: decodeEntities rest
      | some found =>
        match entityText (rest.take found) with
        | none => letter :: decodeEntities rest
        | some text => text ++ decodeEntities (rest.drop (found + 1))
termination_by raw => raw.length
decreasing_by all_goals simp <;> omega

/-! ### Escaped text -/

/-- The reference that stands for a letter, if the letter is markup. -/
def escapeName (letter : UInt8) : Option (List UInt8) :=
  if letter = 0x26 then some kAmp
  else if letter = 0x3c then some kLt
  else if letter = 0x3e then some kGt
  else if letter = 0x22 then some kQuot
  else if letter = 0x27 then some kApos
  else none

/-- What stands for a letter of a text. -/
def escapeLetter (letter : UInt8) : List UInt8 :=
  match escapeName letter with
  | some name => 0x26 :: name ++ [0x3b]
  | none => [letter]

/-- A text with references for the letters that are markup. -/
def escapeEntities (text : List UInt8) : List UInt8 :=
  text.flatMap escapeLetter

theorem decodeEntities_cons {letter : UInt8} (h : letter ≠ 0x26) (rest : List UInt8) :
  decodeEntities (letter :: rest) = letter :: decodeEntities rest
  := by
  rw [decodeEntities, if_pos h]

/-- A reference whose name has no semicolon and is short is decoded. -/
theorem decodeEntities_entity {name text : List UInt8} (hshort : name.length < 16)
    (hname : 0x3b ∉ name) (htext : entityText name = some text) (rest : List UInt8) :
  decodeEntities (0x26 :: (name ++ 0x3b :: rest)) = text ++ decodeEntities rest
  := by
  have hfound : ((name ++ 0x3b :: rest).take 16).findIdx? (· = 0x3b) = some name.length := by
    obtain ⟨more, hmore⟩ : ∃ more, 16 = name.length + (more + 1) := ⟨15 - name.length, by omega⟩
    rw [hmore, take_length_add_append, take_succ_cons, findIdx?_append]
    have hnone : name.findIdx? (fun letter => decide (letter = 0x3b)) = none := by
      apply findIdx?_eq_none_iff.mpr
      intro letter hletter
      apply decide_eq_false
      rintro rfl
      exact hname hletter
    rw [hnone, findIdx?_cons]
    simp
  rw [decodeEntities, if_neg (by decide), hfound]
  simp only [take_left', htext]
  rw [drop_length_add_append, drop_succ_cons, drop_zero]

/-- Escaped text is decoded to the text. -/
theorem decodeEntities_escapeEntities (text : List UInt8) :
  decodeEntities (escapeEntities text) = text
  := by
  induction text with
  | nil => rw [escapeEntities, flatMap_nil, decodeEntities]
  | cons letter text ih =>
    rw [escapeEntities, flatMap_cons, ← escapeEntities, escapeLetter]
    cases hname : escapeName letter with
    | some name =>
      have hentity : name.length < 16 ∧ 0x3b ∉ name ∧ entityText name = some [letter] := by
        unfold escapeName at hname
        split_ifs at hname with hamp hlt hgt hquot hapos
        · obtain ⟨rfl, rfl⟩ := And.intro hamp (some.inj hname)
          exact ⟨by decide, by decide, rfl⟩
        · obtain ⟨rfl, rfl⟩ := And.intro hlt (some.inj hname)
          exact ⟨by decide, by decide, rfl⟩
        · obtain ⟨rfl, rfl⟩ := And.intro hgt (some.inj hname)
          exact ⟨by decide, by decide, rfl⟩
        · obtain ⟨rfl, rfl⟩ := And.intro hquot (some.inj hname)
          exact ⟨by decide, by decide, rfl⟩
        · obtain ⟨rfl, rfl⟩ := And.intro hapos (some.inj hname)
          exact ⟨by decide, by decide, rfl⟩
      obtain ⟨hshort, hsemicolon, htext⟩ := hentity
      have hdecode := decodeEntities_entity hshort hsemicolon htext (escapeEntities text)
      simpa [ih] using hdecode
    | none =>
      have hamp : letter ≠ 0x26 := by
        rintro rfl
        cases hname
      rw [singleton_append, decodeEntities_cons hamp, ih]

theorem markup_notMem_escapeLetter (letter : UInt8) :
  0x3c ∉ escapeLetter letter ∧ 0x22 ∉ escapeLetter letter
  := by
  unfold escapeLetter
  cases hname : escapeName letter with
  | some name =>
    unfold escapeName at hname
    split_ifs at hname
    all_goals
      obtain rfl := some.inj hname
      dsimp only
      decide
  | none =>
    constructor
    all_goals
      intro hmem
      obtain rfl := mem_singleton.mp hmem
      cases hname

/-- Escaped text has neither a tag in it nor a quote. -/
theorem markup_notMem_escapeEntities (text : List UInt8) :
  0x3c ∉ escapeEntities text ∧ 0x22 ∉ escapeEntities text
  := by
  constructor
  all_goals
    intro hmem
    obtain ⟨letter, _, hletter⟩ := mem_flatMap.mp hmem
  · exact (markup_notMem_escapeLetter letter).1 hletter
  · exact (markup_notMem_escapeLetter letter).2 hletter

theorem escapeEntities_ne_nil {text : List UInt8} (h : text ≠ []) :
  escapeEntities text ≠ []
  := by
  obtain ⟨letter, rest, rfl⟩ := exists_cons_of_ne_nil h
  rw [escapeEntities, flatMap_cons, escapeLetter]
  split <;> simp

end GRParse.Confluence
