import GRParse.Lib.Utf8
import Mathlib.Data.Bool.AllAny

/-!
# Escaping for XML

Texts go into XML documents with references for the characters that mark it up, and with the
replacement character for what XML does not allow.  The text is taken apart into stretches of
UTF-8 at the bytes that begin no character.
-/

namespace GRParse.Render

open Utf8 List

/-! ### The functions -/

def kReplacementCharacter : Char := Char.ofNat 0xfffd

def kAmp : List Char := ['&', 'a', 'm', 'p', ';']
def kLt : List Char := ['&', 'l', 't', ';']
def kGt : List Char := ['&', 'g', 't', ';']
def kQuot : List Char := ['&', 'q', 'u', 'o', 't', ';']
def kTab : List Char := ['&', '#', '9', ';']
def kLineFeed : List Char := ['&', '#', '1', '0', ';']
def kCarriageReturn : List Char := ['&', '#', '1', '3', ';']

/-- What the switch of `append_xml_escaped` appends, and for the other control characters. -/
def escapedByte (inAttribute : Bool) (byte : UInt8) : Option (List Char) :=
  if byte = 0x26 then some kAmp
  else if byte = 0x3c then some kLt
  else if byte = 0x3e then some kGt
  else if byte = 0x22 then some (if inAttribute then kQuot else ['"'])
  else if byte = 0x09 then some (if inAttribute then kTab else ['\t'])
  else if byte = 0x0a then some (if inAttribute then kLineFeed else ['\n'])
  else if byte = 0x0d then some (if inAttribute then kCarriageReturn else ['\r'])
  else if byte < 0x20 then some [kReplacementCharacter]
  else none

def appendXmlEscaped (inAttribute : Bool) : List UInt8 → List UInt8
  | [] => []
  | byte :: rest =>
    match escapedByte inAttribute byte with
    | some chars => encode chars ++ appendXmlEscaped inAttribute rest
    | none =>
      match rest with
      | second :: third :: after =>
        -- U+FFFE and U+FFFF
        if byte = 0xef ∧ second = 0xbf ∧ (third = 0xbe ∨ third = 0xbf) then
          encode [kReplacementCharacter] ++ appendXmlEscaped inAttribute after
        else byte :: appendXmlEscaped inAttribute (second :: third :: after)
      | rest => byte :: appendXmlEscaped inAttribute rest

/-- `escape_xml`, with the offset that `simdutf::validate_utf8_with_errors` reports. -/
def escapeXml (validate : (text : List UInt8) → Option (Fin text.length)) (inAttribute : Bool)
    (text : List UInt8) : List UInt8 :=
  match validate text with
  | none => appendXmlEscaped inAttribute text
  | some count =>
    appendXmlEscaped inAttribute (text.take count) ++ encode [kReplacementCharacter] ++
      escapeXml validate inAttribute (text.drop (count + 1))
termination_by text.length
decreasing_by
  rw [List.length_drop]
  have hlt := count.isLt
  omega

/-! ### What XML allows -/

/-- The production `Char` of XML 1.0. -/
def isXmlChar (c : Char) : Bool :=
  c = '\t' || c = '\n' || c = '\r' || (0x20 ≤ c.toNat && c.toNat ≤ 0xd7ff) ||
    (0xe000 ≤ c.toNat && c.toNat ≤ 0xfffd) || (0x10000 ≤ c.toNat && c.toNat ≤ 0x10ffff)

/-- The references that are written, and what they stand for. -/
def references : List (List Char × Char) :=
  [(kAmp, '&'), (kLt, '<'), (kGt, '>'), (kQuot, '"'), (kTab, '\t'), (kLineFeed, '\n'),
    (kCarriageReturn, '\r')]

/-- The reference that a text begins with. -/
def reference (text : List Char) : Option (List Char × Char) :=
  references.find? fun entry => entry.1.isPrefixOf text

/-- The text with its references resolved. -/
def resolve : List Char → List Char
  | [] => []
  | c :: rest =>
    match reference (c :: rest) with
    | some (name, char) => char :: resolve (rest.drop (name.length - 1))
    | none => c :: resolve rest
termination_by text => text.length

/-- What stands for a character, or for a byte that begins none. -/
def replaced : Option Char → Char
  | none => kReplacementCharacter
  | some c => if isXmlChar c then c else kReplacementCharacter

/-! ### Escaping characters -/

/-- What a character is escaped to. -/
def escapedChar (inAttribute : Bool) (c : Char) : List Char :=
  if c = '&' then kAmp
  else if c = '<' then kLt
  else if c = '>' then kGt
  else if inAttribute && c = '"' then kQuot
  else if inAttribute && c = '\t' then kTab
  else if inAttribute && c = '\n' then kLineFeed
  else if inAttribute && c = '\r' then kCarriageReturn
  else [replaced (some c)]

variable {c : Char}

theorem escapedByte_ascii (inAttribute : Bool) (h : c.toNat < 128) :
  (escapedByte inAttribute (UInt8.ofNat c.toNat)).getD [c] = escapedChar inAttribute c
  := by
  have hall : (range 128).all fun n =>
      (escapedByte inAttribute (UInt8.ofNat n)).getD [Char.ofNat n] =
        escapedChar inAttribute (Char.ofNat n) := by
    cases inAttribute <;> rfl
  have hc := all_eq_true.mp hall c.toNat (mem_range.mpr h)
  rwa [decide_eq_true_eq, Char.ofNat_toNat] at hc

variable {inAttribute : Bool}

theorem escapedByte_wide {byte : UInt8} (h : 0x80 ≤ byte) :
  escapedByte inAttribute byte = none
  := by
  have hne : ∀ small : UInt8, small < 0x80 → byte ≠ small := by
    rintro small hsmall rfl
    exact UInt8.not_le.mpr hsmall h
  have hlarge : ¬ byte < 0x20 := by
    intro hlt
    exact UInt8.not_le.mpr (UInt8.lt_trans hlt (by decide)) h
  rw [escapedByte, if_neg (hne _ (by decide)), if_neg (hne _ (by decide)),
    if_neg (hne _ (by decide)), if_neg (hne _ (by decide)), if_neg (hne _ (by decide)),
    if_neg (hne _ (by decide)), if_neg (hne _ (by decide)), if_neg hlarge]

theorem appendXmlEscaped_escaped {byte : UInt8} {chars : List Char}
    (h : escapedByte inAttribute byte = some chars) (rest : List UInt8) :
  appendXmlEscaped inAttribute (byte :: rest) = encode chars ++ appendXmlEscaped inAttribute rest
  := by
  match rest with
  | [] => simp [appendXmlEscaped, h]
  | [_] => simp [appendXmlEscaped, h]
  | second :: third :: after => rw [appendXmlEscaped, h]

/-- A byte is kept that is neither escaped nor begins U+FFFE or U+FFFF. -/
theorem appendXmlEscaped_push {byte : UInt8} {rest : List UInt8}
    (hescaped : escapedByte inAttribute byte = none)
    (hpoint : ∀ after, (byte :: rest) ≠ 0xef :: 0xbf :: 0xbe :: after ∧
      (byte :: rest) ≠ 0xef :: 0xbf :: 0xbf :: after) :
  appendXmlEscaped inAttribute (byte :: rest) = byte :: appendXmlEscaped inAttribute rest
  := by
  match rest with
  | [] => simp [appendXmlEscaped, hescaped]
  | [_] => simp [appendXmlEscaped, hescaped]
  | second :: third :: after =>
    rw [appendXmlEscaped, hescaped]
    apply if_neg
    rintro ⟨rfl, rfl, rfl | rfl⟩
    · exact (hpoint after).1 rfl
    · exact (hpoint after).2 rfl

theorem appendXmlEscaped_continuations {bytes : List UInt8}
    (h : ∀ byte ∈ bytes, 128 ≤ byte ∧ startsChar byte = false) (rest : List UInt8) :
  appendXmlEscaped inAttribute (bytes ++ rest) = bytes ++ appendXmlEscaped inAttribute rest
  := by
  induction bytes with
  | nil => rfl
  | cons byte bytes ih =>
    obtain ⟨hbyte, hbytes⟩ := forall_mem_cons.mp h
    rw [cons_append, appendXmlEscaped_push (escapedByte_wide hbyte.1), ih hbytes]
    · rfl
    · intro after
      constructor <;>
      · intro heq
        rw [(cons.inj heq).1] at hbyte
        exact absurd hbyte.2 (by decide)

theorem escapedChar_wide (h : 128 ≤ c.toNat) :
  escapedChar inAttribute c = [replaced (some c)]
  := by
  have hne : ∀ small : Char, small.toNat < 128 → c ≠ small := by
    rintro small hsmall rfl
    exact Nat.not_le.mpr hsmall h
  simp [escapedChar, hne '&' (by decide), hne '<' (by decide), hne '>' (by decide),
    hne '"' (by decide), hne '\t' (by decide), hne '\n' (by decide), hne '\r' (by decide)]

/-- Of the wide characters, XML does not allow U+FFFE and U+FFFF. -/
theorem replaced_wide (h : 128 ≤ c.toNat) :
  replaced (some c) =
    if c.toNat = 0xfffe ∨ c.toNat = 0xffff then kReplacementCharacter else c
  := by
  have hvalid : c.toNat < 0xd800 ∨ 0xdfff < c.toNat ∧ c.toNat < 0x110000 := c.valid
  have hne : ∀ small : Char, small.toNat < 128 → c ≠ small := by
    rintro small hsmall rfl
    exact Nat.not_le.mpr hsmall h
  have hxml : isXmlChar c = !decide (c.toNat = 0xfffe ∨ c.toNat = 0xffff) := by
    rw [Bool.eq_iff_iff]
    simp only [isXmlChar, hne '\t' (by decide), hne '\n' (by decide), hne '\r' (by decide),
      decide_false, Bool.false_or, Bool.or_eq_true, Bool.and_eq_true, decide_eq_true_eq,
      Bool.not_eq_true', decide_eq_false_iff_not]
    omega
  rw [replaced, hxml]
  split <;> split <;> simp_all

theorem encode_singleton (c : Char) :
  encode [c] = String.utf8EncodeChar c
  := flatMap_singleton ..

/-- The bytes of U+FFFE and U+FFFF begin no other character. -/
theorem eq_of_utf8EncodeChar_append {c point : Char} {rest after : List UInt8}
    (h : String.utf8EncodeChar c ++ rest = String.utf8EncodeChar point ++ after) :
  c = point
  := by
  have hfirst := firstChar_append c rest
  rw [h, firstChar_append] at hfirst
  exact (Option.some.inj hfirst).symm

/-- What a character at the front of a text is escaped to. -/
theorem appendXmlEscaped_char (inAttribute : Bool) (c : Char) (rest : List UInt8) :
  appendXmlEscaped inAttribute (String.utf8EncodeChar c ++ rest) =
    encode (escapedChar inAttribute c) ++ appendXmlEscaped inAttribute rest
  := by
  have hfffe : String.utf8EncodeChar (Char.ofNat 0xfffe) = [0xef, 0xbf, 0xbe] := by decide
  have hffff : String.utf8EncodeChar (Char.ofNat 0xffff) = [0xef, 0xbf, 0xbf] := by decide
  rcases Nat.lt_or_ge c.toNat 128 with hascii | hwide
  · have hescaped := escapedByte_ascii inAttribute hascii
    rw [utf8EncodeChar_ascii hascii, singleton_append]
    cases hbyte : escapedByte inAttribute (UInt8.ofNat c.toNat) with
    | some chars =>
      rw [hbyte] at hescaped
      rw [← hescaped, appendXmlEscaped_escaped hbyte]
      rfl
    | none =>
      rw [hbyte] at hescaped
      have hpoint : UInt8.ofNat c.toNat ≠ 0xef := by
        intro heq
        have htoNat := congrArg UInt8.toNat heq
        rw [UInt8.toNat_ofNat', Nat.mod_eq_of_lt (by omega)] at htoNat
        exact absurd hascii (by rw [htoNat]; decide)
      rw [← hescaped, Option.getD_none, encode_singleton, utf8EncodeChar_ascii hascii,
        appendXmlEscaped_push hbyte]
      · rfl
      · intro after
        exact ⟨fun heq => hpoint (cons.inj heq).1, fun heq => hpoint (cons.inj heq).1⟩
  · rw [escapedChar_wide hwide, replaced_wide hwide]
    by_cases hpoint : c.toNat = 0xfffe ∨ c.toNat = 0xffff
    · rw [if_pos hpoint, ← Char.ofNat_toNat c]
      rcases hpoint with h | h
      · rw [h, hfffe]
        rfl
      · rw [h, hffff]
        rfl
    · obtain ⟨lead, continuations, hbytes, hlead, hcontinuations⟩ := utf8EncodeChar_wide hwide
      rw [if_neg hpoint, encode_singleton, hbytes, cons_append, appendXmlEscaped_push,
        appendXmlEscaped_continuations hcontinuations]
      · rfl
      · exact escapedByte_wide (UInt8.le_trans (by decide) hlead)
      · rw [← cons_append, ← hbytes]
        intro after
        constructor
        · intro heq
          rw [← nil_append after, ← cons_append, ← cons_append, ← cons_append,
            ← hfffe] at heq
          rw [eq_of_utf8EncodeChar_append heq] at hpoint
          exact hpoint (Or.inl rfl)
        · intro heq
          rw [← nil_append after, ← cons_append, ← cons_append, ← cons_append,
            ← hffff] at heq
          rw [eq_of_utf8EncodeChar_append heq] at hpoint
          exact hpoint (Or.inr rfl)

/-- UTF-8 is escaped character by character. -/
theorem appendXmlEscaped_encode (inAttribute : Bool) (chars : List Char) :
  appendXmlEscaped inAttribute (encode chars) = encode (chars.flatMap (escapedChar inAttribute))
  := by
  induction chars with
  | nil => rfl
  | cons c chars ih =>
    rw [encode_cons, appendXmlEscaped_char, ih, flatMap_cons, encode_append]

/-- What is written for a character, or for a byte that begins none. -/
def escapedUnit (inAttribute : Bool) : Option Char → List Char
  | none => [kReplacementCharacter]
  | some c => escapedChar inAttribute c

variable {validate : (text : List UInt8) → Option (Fin text.length)}

/-- Wherever the text is cut, each character is escaped, and each byte that begins none is
replaced. -/
theorem escapeXml_eq (hvalidate : ReportsFirstInvalid validate) (inAttribute : Bool)
    (text : List UInt8) :
  escapeXml validate inAttribute text = encode ((units text).flatMap (escapedUnit inAttribute))
  := by
  have hchars : ∀ chars : List Char,
      (chars.map some).flatMap (escapedUnit inAttribute) =
        chars.flatMap (escapedChar inAttribute) := by
    intro chars
    rw [flatMap_map]
    rfl
  fun_induction escapeXml validate inAttribute text with
  | case1 text hnone =>
    have hreports := hvalidate text
    rw [hnone] at hreports
    obtain ⟨chars, rfl⟩ := hreports
    rw [appendXmlEscaped_encode, units_encode, hchars]
  | case2 text count hsome ih =>
    have hreports := hvalidate text
    rw [hsome] at hreports
    obtain ⟨⟨chars, htake⟩, hfirst⟩ := hreports
    have hdrop : text.drop count = text[count] :: text.drop (count + 1) :=
      drop_eq_getElem_cons count.isLt
    rw [hdrop] at hfirst
    rw [ih, htake, appendXmlEscaped_encode]
    conv_rhs => rw [← take_append_drop count text, htake, hdrop, units_encode_append,
      units_byte hfirst, flatMap_append, hchars, flatMap_cons, encode_append,
      encode_append]
    rw [append_assoc]
    rfl

/-! ### What is written for one character -/

theorem isXmlChar_replaced (unit : Option Char) :
  isXmlChar (replaced unit)
  := by
  cases unit with
  | none => decide
  | some c =>
    rw [replaced]
    split
    case isTrue h => exact h
    case isFalse => decide

theorem replaced_ne {c small : Char} (h : c ≠ small) (hsmall : small ≠ kReplacementCharacter) :
  replaced (some c) ≠ small
  := by
  rw [replaced]
  split
  · exact h
  · exact hsmall.symm

/-- The characters that an attribute does not hold. -/
def kAttributeEscaped : List Char :=
  ['"', '\t', '\n', '\r']

/-- A character is written as a reference, or as it is when it needs none. -/
theorem escapedUnit_cases (inAttribute : Bool) (unit : Option Char) :
  (escapedUnit inAttribute unit, replaced unit) ∈ references ∨
    escapedUnit inAttribute unit = [replaced unit] ∧ replaced unit ≠ '&' ∧ replaced unit ≠ '<' ∧
      (inAttribute → replaced unit ∉ kAttributeEscaped)
  := by
  cases unit with
  | none => exact Or.inr ⟨rfl, by decide, by decide, fun _ => by decide⟩
  | some c =>
    rw [escapedUnit, escapedChar]
    split_ifs with hamp hlt hgt hquot htab hlineFeed hcarriageReturn
    · subst hamp
      exact Or.inl (by decide)
    · subst hlt
      exact Or.inl (by decide)
    · subst hgt
      exact Or.inl (by decide)
    · obtain ⟨-, rfl⟩ : inAttribute = true ∧ c = '"' := by simpa using hquot
      exact Or.inl (by decide)
    · obtain ⟨-, rfl⟩ : inAttribute = true ∧ c = '\t' := by simpa using htab
      exact Or.inl (by decide)
    · obtain ⟨-, rfl⟩ : inAttribute = true ∧ c = '\n' := by simpa using hlineFeed
      exact Or.inl (by decide)
    · obtain ⟨-, rfl⟩ : inAttribute = true ∧ c = '\r' := by simpa using hcarriageReturn
      exact Or.inl (by decide)
    · right
      refine ⟨rfl, replaced_ne hamp (by decide), replaced_ne hlt (by decide), ?_⟩
      rintro rfl
      simp only [Bool.true_and, decide_eq_true_eq] at hquot htab hlineFeed hcarriageReturn
      simp only [kAttributeEscaped, mem_cons, not_mem_nil, or_false, not_or]
      exact ⟨replaced_ne hquot (by decide), replaced_ne htab (by decide),
        replaced_ne hlineFeed (by decide), replaced_ne hcarriageReturn (by decide)⟩

/-- What the names of the references are made of. -/
structure IsName (name : List Char) : Prop where
  head : ∃ rest, name = '&' :: rest ∧ '&' ∉ rest
  allowed : ∀ c ∈ name, isXmlChar c ∧ c ≠ '<' ∧ c ∉ kAttributeEscaped

variable {entry : List Char × Char}

theorem isName_of_mem (h : entry ∈ references) :
  IsName entry.1
  := by
  simp only [references, mem_cons, not_mem_nil, or_false] at h
  rcases h with rfl | rfl | rfl | rfl | rfl | rfl | rfl <;>
    exact ⟨⟨_, rfl, by decide⟩, all_iff_forall_prop.mp rfl⟩

theorem reference_append (h : entry ∈ references) (rest : List Char) :
  reference (entry.1 ++ rest) = some entry
  := by
  simp only [references, mem_cons, not_mem_nil, or_false] at h
  rcases h with rfl | rfl | rfl | rfl | rfl | rfl | rfl <;> rfl

theorem reference_of_ne (h : c ≠ '&') (rest : List Char) :
  reference (c :: rest) = none
  := by
  rw [reference, find?_eq_none]
  rintro entry hentry hprefix
  obtain ⟨⟨name, hname, -⟩, -⟩ := isName_of_mem hentry
  rw [hname, isPrefixOf_iff_prefix, cons_prefix_cons] at hprefix
  exact h hprefix.1.symm

theorem resolve_name_append (h : entry ∈ references) (rest : List Char) :
  resolve (entry.1 ++ rest) = entry.2 :: resolve rest
  := by
  obtain ⟨⟨name, hname, -⟩, -⟩ := isName_of_mem h
  have hreference := reference_append h rest
  obtain ⟨entryName, char⟩ := entry
  simp only at hname hreference ⊢
  subst hname
  rw [cons_append] at hreference ⊢
  rw [resolve, hreference]
  simp

theorem resolve_cons (h : c ≠ '&') (rest : List Char) :
  resolve (c :: rest) = c :: resolve rest
  := by
  rw [resolve, reference_of_ne h]

/-! ### The escaped text -/

/-- A text that is safe in XML, and that says the other one but for what XML cannot say. -/
structure EscapedAs (inAttribute : Bool) (text : List UInt8) (output : List Char) : Prop where
  allowed : ∀ c ∈ output, isXmlChar c
  noTag : '<' ∉ output
  referred : ∀ front back, output = front ++ '&' :: back →
    ∃ entry ∈ references, entry.1 <+: '&' :: back
  quoted : inAttribute → ∀ c ∈ kAttributeEscaped, c ∉ output
  resolved : resolve output = (units text).map replaced

theorem mem_escaped {pieces : List (Option Char)}
    (h : c ∈ pieces.flatMap (escapedUnit inAttribute)) :
  isXmlChar c ∧ c ≠ '<' ∧ (inAttribute → c ∉ kAttributeEscaped)
  := by
  obtain ⟨unit, -, hc⟩ := mem_flatMap.mp h
  rcases escapedUnit_cases inAttribute unit with hname | ⟨heq, -, hlt, hescaped⟩
  · obtain ⟨hxml, hlt, hescaped⟩ := (isName_of_mem hname).allowed c hc
    exact ⟨hxml, hlt, fun _ => hescaped⟩
  · rw [heq, mem_singleton] at hc
    subst hc
    exact ⟨isXmlChar_replaced unit, hlt, hescaped⟩

theorem referred_escaped (inAttribute : Bool) (pieces : List (Option Char))
    {front back : List Char}
    (h : pieces.flatMap (escapedUnit inAttribute) = front ++ '&' :: back) :
  ∃ entry ∈ references, entry.1 <+: '&' :: back
  := by
  induction pieces generalizing front with
  | nil => cases front <;> cases h
  | cons unit pieces ih =>
    rw [flatMap_cons] at h
    rcases append_eq_append_iff.mp h with ⟨middle, -, hrest⟩ | ⟨middle, hunit, hrest⟩
    · exact ih hrest
    · cases middle with
      | nil => exact @ih [] hrest.symm
      | cons c middle =>
        obtain ⟨rfl, hback⟩ := cons.inj hrest
        rcases escapedUnit_cases inAttribute unit with hname | ⟨heq, hne, -⟩
        · -- the only ampersand of a reference is its first character
          obtain ⟨⟨name, hhead, hnone⟩, -⟩ := isName_of_mem hname
          simp only at hhead
          cases front with
          | nil =>
            refine ⟨_, hname, ?_⟩
            rw [hunit, hback]
            exact ⟨_, rfl⟩
          | cons c' front =>
            rw [hunit] at hhead
            obtain ⟨-, rfl⟩ := cons.inj hhead
            exact absurd (mem_append_right _ mem_cons_self) hnone
        · rw [heq] at hunit
          have hmem : '&' ∈ [replaced unit] := by
            rw [hunit]
            exact mem_append_right _ mem_cons_self
          exact absurd (mem_singleton.mp hmem).symm hne

theorem resolve_escaped (inAttribute : Bool) (pieces : List (Option Char)) :
  resolve (pieces.flatMap (escapedUnit inAttribute)) = pieces.map replaced
  := by
  induction pieces with
  | nil =>
    rw [flatMap_nil, resolve]
    rfl
  | cons unit pieces ih =>
    rw [flatMap_cons, map_cons, ← ih]
    rcases escapedUnit_cases inAttribute unit with hname | ⟨heq, hne, -⟩
    · exact resolve_name_append hname _
    · rw [heq]
      exact resolve_cons hne _

/-- Escaping is sound and can be undone but for what XML cannot say. -/
theorem escapeXml_escapedAs (hvalidate : ReportsFirstInvalid validate) (inAttribute : Bool)
    (text : List UInt8) :
  ∃ output, escapeXml validate inAttribute text = encode output ∧
    EscapedAs inAttribute text output
  := by
  refine ⟨_, escapeXml_eq hvalidate inAttribute text, ?_, ?_, ?_, ?_, ?_⟩
  · exact fun c hc => (mem_escaped hc).1
  · exact fun hc => (mem_escaped hc).2.1 rfl
  · exact fun front back => referred_escaped inAttribute (units text)
  · exact fun hattribute c hescaped hc => (mem_escaped hc).2.2 hattribute hescaped
  · exact resolve_escaped inAttribute (units text)

/-- The bytes of `<`, of no character, and of `&`. -/
theorem escapeXml_escapedAs_mixed :
  ∃ output, escapeXml firstInvalid true [0x3c, 0xff, 0x26] = encode output ∧
    EscapedAs true [0x3c, 0xff, 0x26] output
  := escapeXml_escapedAs firstInvalid_reports true [0x3c, 0xff, 0x26]

end GRParse.Render
