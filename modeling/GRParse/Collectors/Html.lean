import Mathlib.Data.List.Infix

/-!
# HTML text

The strings a markup collector reads.  They come over the wire as well-formed UTF-8, so we keep
them as strings: the bytes of one are its `utf8ByteSize`, and `utf8_codepoint_count` is its
length.  The table of named character references is a parameter.
-/

namespace GRParse.LolHtml

/-- `lowercase_ascii`. -/
def lowercaseAscii (input : String) : String :=
  String.ofList (input.toList.map Char.toLower)

/-- `is_void_html_element`. -/
def isVoidHtmlElement (lowerTag : String) : Bool :=
  lowerTag ∈ ["area", "base", "br", "col", "embed", "hr", "img", "input", "link", "meta",
    "source", "track", "wbr"]

/-! ### Character references -/

/-- What Windows made of the second block of control characters. -/
def kC1 : List ℕ :=
  [0x20AC, 0x81, 0x201A, 0x192, 0x201E, 0x2026, 0x2020, 0x2021,
    0x2C6, 0x2030, 0x160, 0x2039, 0x152, 0x8D, 0x17D, 0x8F,
    0x90, 0x2018, 0x2019, 0x201C, 0x201D, 0x2022, 0x2013, 0x2014,
    0x2DC, 0x2122, 0x161, 0x203A, 0x153, 0x9D, 0x17E, 0x178]

/-- `append_utf8_codepoint`: the character appended for a code point. -/
def codepointChar (cp : ℕ) : Char :=
  Char.ofNat (if cp = 0 ∨ cp > 0x10FFFF ∨ (0xD800 ≤ cp ∧ cp ≤ 0xDFFF) then 0xFFFD else cp)

/-- The value of a digit of a numeric reference. -/
def digitValue (hex : Bool) (char : Char) : Option ℕ :=
  if '0' ≤ char ∧ char ≤ '9' then some (char.toNat - '0'.toNat)
  else if hex ∧ 'a' ≤ char ∧ char ≤ 'f' then some (char.toNat - 'a'.toNat + 10)
  else if hex ∧ 'A' ≤ char ∧ char ≤ 'F' then some (char.toNat - 'A'.toNat + 10)
  else none

/-- A code point so far, with one more digit. -/
def addDigit (hex : Bool) (cp : ℕ) (char : Char) : ℕ :=
  if cp ≤ 0x10FFFF then cp * (if hex then 16 else 10) + (digitValue hex char).getD 0
  else 0x110000

/-- The character of a numeric reference, given what follows its `&#`, and how much of that the
reference takes. -/
def numericReference (rest : List Char) : Option (String × ℕ) :=
  let hex := rest.head? = some 'x' ∨ rest.head? = some 'X'
  let rest := if hex then rest.drop 1 else rest
  let digits := rest.takeWhile fun char => (digitValue hex char).isSome
  if digits = [] then none
  else
    let cp := digits.foldl (addDigit hex) 0
    let cp := if 0x80 ≤ cp ∧ cp ≤ 0x9F then kC1.getD (cp - 0x80) 0 else cp
    let semicolon := (rest.drop digits.length).head? = some ';'
    some (String.ofList [codepointChar cp],
      (if hex then 1 else 0) + digits.length + (if semicolon then 1 else 0))

section Decode

-- The named character references: what follows the `&` of one, and its characters.  The names
-- are in ASCII, so 32 of their bytes are 32 characters.
variable (kHtmlEntities : List (String × String))

/-- The longest name of at most the given length that what follows `&` begins with. -/
def namedReference (rest : List Char) : ℕ → Option (String × ℕ)
  | 0 => none
  | length + 1 =>
    match kHtmlEntities.lookup (String.ofList (rest.take (length + 1))) with
    | some value => some (value, length + 1)
    | none => namedReference rest length

/-- The reference that follows an `&`: its characters, and how much of the rest it takes. -/
def reference (rest : List Char) : Option (String × ℕ) :=
  if rest.head? = some '#' then
    (numericReference (rest.drop 1)).map fun found => (found.1, found.2 + 1)
  else namedReference kHtmlEntities rest (min 32 rest.length)

/-- The loop of `decode_html_entities`, after the given number of characters that belong to the
reference before. -/
def decodeFrom : ℕ → List Char → List Char
  | _, [] => []
  | skip + 1, _ :: rest => decodeFrom skip rest
  | 0, char :: rest =>
    if char ≠ '&' then char :: decodeFrom 0 rest
    else
      match reference kHtmlEntities rest with
      | some (value, length) => value.toList ++ decodeFrom length rest
      | none => '&' :: decodeFrom 0 rest

/-- `decode_html_entities`. -/
def decodeHtmlEntities (input : String) : String :=
  String.ofList (decodeFrom kHtmlEntities 0 input.toList)

end Decode

/-- A numeric reference, a name without its semicolon, and one that names nothing. -/
example :
    decodeHtmlEntities [("amp", "&"), ("amp;", "&")] "Tom &amp; &#x2603;&amp &x" =
      "Tom & ☃& &x" := by
  decide +kernel

/-! ### Events -/

/-- A range of bytes of the source; its end is exclusive. -/
structure SourceSpan where
  start : ℕ
  stop : ℕ
  deriving DecidableEq, Repr

/-- The namespace of an element. -/
inductive Namespace where
  | unspecified
  | html
  | svg
  | mathml
  deriving DecidableEq, Repr

/-- The kinds of text. -/
inductive TextType where
  | unspecified
  | data
  | rcdata
  | rawText
  | scriptData
  | plainText
  | cdataSection
  deriving DecidableEq, Repr

/-- An attribute on a start tag. -/
structure Attribute where
  name : String := ""
  nameRaw : String := ""
  value : String := ""
  nameSpan : Option SourceSpan := none
  valueSpan : Option SourceSpan := none
  valuePresent : Option Bool := none
  deriving DecidableEq, Repr

/-- The normalized name of an attribute. -/
def Attribute.lowerName (attr : Attribute) : String :=
  if attr.name ≠ "" then attr.name else lowercaseAscii attr.nameRaw

/-- A rule of a request. -/
structure ExtractRule where
  id : String
  selector : String
  deriving DecidableEq, Repr

/-- The options of a request. -/
structure ExtractOptions where
  rules : List ExtractRule := []
  rawTextChunks : Bool := false
  deriving DecidableEq, Repr

/-! ### The budget -/

/-- The text budget of the collector. -/
def kBufferedTextBytes : ℕ := 16 * 1024 * 1024

/-- The characters that the given number of bytes holds whole. -/
def takeWithin : ℕ → List Char → List Char
  | _, [] => []
  | room, char :: rest =>
    if char.utf8Size ≤ room then char :: takeWithin (room - char.utf8Size) rest else []

/-- A text cut to the given number of bytes, before the character that does not fit. -/
def boundedPrefix (room : ℕ) (text : String) : String :=
  String.ofList (takeWithin room text.toList)

end GRParse.LolHtml
