import GRParse.Lib.CommonMark
import GRParse.Lib.PercentCoding
import GRParse.Lib.Utf8
import GRParse.Render.NumericCells
import Mathlib.Data.Bool.AllAny

/-!
# Hyperlinks

A hyperlink becomes a live link only when a browser reads no scheme from it that it could run, and
it goes into Markdown as a destination that is read back as the same address.
-/

namespace GRParse.Render

open List Percent

open CommonMark (isAlpha isAlphanumeric IsEntityTable)

/-! ### The functions -/

/-- A tab or the byte of a line break. -/
def isLineBreak (byte : UInt8) : Bool :=
  byte = 0x09 || byte = 0x0d || byte = 0x0a

/-- The first loop of `is_safe_hyperlink`. -/
def cleanHyperlink (cleaned : List UInt8) : List UInt8 → List UInt8
  | [] => cleaned
  | byte :: rest =>
    if isLineBreak byte then cleanHyperlink cleaned rest
    else if cleaned = [] ∧ byte ≤ 0x20 then cleanHyperlink cleaned rest
    else cleanHyperlink (cleaned ++ [byte]) rest

def isSchemeByte (byte : UInt8) : Bool :=
  isAlphanumeric byte || byte = 0x2b || byte = 0x2e || byte = 0x2d

/-- The schemes that are safe. -/
def kSafe : List (List UInt8) :=
  [['h', 't', 't', 'p'], ['h', 't', 't', 'p', 's'], ['f', 't', 'p'], ['f', 't', 'p', 's'],
    ['s', 'f', 't', 'p'], ['m', 'a', 'i', 'l', 't', 'o'], ['t', 'e', 'l'],
    ['f', 'i', 'l', 'e']].map Utf8.encode

/-- Schemes are compared byte by byte. -/
local instance lawfulScheme : LawfulBEq (List UInt8) := inferInstance

def isSafeHyperlink (uri : List UInt8) : Bool :=
  match cleanHyperlink [] uri with
  | [] => true
  | first :: rest =>
    if !isAlpha first then true
    else
      let scheme := rest.takeWhile isSchemeByte
      if (rest.dropWhile isSchemeByte).head? ≠ some 0x3a then true
      else if scheme = [] then true
      else (first :: scheme).map tolower ∈ kSafe

/-- A byte that goes on with the name of an entity. -/
def isEntityByte (byte : UInt8) : Bool :=
  isAlphanumeric byte || byte = 0x5f || 0x80 ≤ byte

/-- Whether an entity is behind an ampersand. -/
def startsEntity (text : List UInt8) : Bool :=
  let text := if text.head? = some 0x23 then text.tail else text
  text.takeWhile isEntityByte ≠ [] ∧ (text.dropWhile isEntityByte).head? = some 0x3b

/-- A byte that does not go into a destination as it is. -/
def isUnsafe (byte : UInt8) : Bool :=
  byte ≤ 0x20 || byte = 0x7f || byte = 0x28 || byte = 0x29 || byte = 0x3c || byte = 0x3e ||
    byte = 0x22 || byte = 0x5c

def markdownLinkDestination : List UInt8 → List UInt8
  | [] => []
  | byte :: rest =>
    if byte = 0x26 then
      if startsEntity rest then 0x26 :: CommonMark.kAmp ++ 0x3b :: markdownLinkDestination rest
      else 0x26 :: markdownLinkDestination rest
    else if isUnsafe byte then Percent.encodeByte byte ++ markdownLinkDestination rest
    else byte :: markdownLinkDestination rest

/-! ### What browsers and parsers read -/

/-- The scheme that a browser reads: controls and spaces before the address are stripped, tabs and
line breaks are removed, and letters are folded. -/
def browserScheme (url : List UInt8) : Option (List UInt8) :=
  match (url.dropWhile (· ≤ 0x20)).filter (!isLineBreak ·) with
  | [] => none
  | first :: rest =>
    if isAlpha first ∧ (rest.dropWhile isSchemeByte).head? = some 0x3a then
      some ((first :: rest.takeWhile isSchemeByte).map tolower)
    else none

/-- No scheme, a single letter, or a scheme that is safe. -/
def IsSafeScheme (scheme : Option (List UInt8)) : Prop :=
  ∀ letters ∈ scheme, letters.length = 1 ∨ letters ∈ kSafe

/-- A link destination without brackets around it, that has no parenthesis or bracket in it
either. -/
structure IsBareDestination (text : List UInt8) : Prop where
  nonempty : text ≠ []
  printable : ∀ byte ∈ text, 0x20 < byte ∧ byte ≠ 0x7f
  plain : ∀ byte ∈ text, byte ≠ 0x28 ∧ byte ≠ 0x29 ∧ byte ≠ 0x3c ∧ byte ≠ 0x3e

/-! ### The scheme -/

theorem cleanHyperlink_append {cleaned : List UInt8} (h : cleaned ≠ []) (uri : List UInt8) :
  cleanHyperlink cleaned uri = cleaned ++ uri.filter (!isLineBreak ·)
  := by
  induction uri generalizing cleaned with
  | nil => simp [cleanHyperlink]
  | cons byte rest ih =>
    rw [cleanHyperlink]
    split
    case isTrue hbreak => rw [ih h, filter_cons_of_neg (by simpa using hbreak)]
    case isFalse hbreak =>
      rw [if_neg fun hspace => h hspace.1, ih (by simp),
        filter_cons_of_pos (by simpa using hbreak), append_assoc]
      rfl

/-- The address is cleaned as browsers clean it. -/
theorem cleanHyperlink_eq (uri : List UInt8) :
  cleanHyperlink [] uri = (uri.dropWhile (· ≤ 0x20)).filter (!isLineBreak ·)
  := by
  induction uri with
  | nil => rfl
  | cons byte rest ih =>
    rw [cleanHyperlink]
    by_cases hspace : byte ≤ 0x20
    · rw [dropWhile_cons_of_pos (by simpa using hspace), ← ih]
      split
      · rfl
      · rw [if_pos ⟨rfl, hspace⟩]
    · have hbreak : isLineBreak byte = false := by
        rw [Bool.eq_false_iff]
        intro hbreak
        have hcases : byte = 0x09 ∨ byte = 0x0d ∨ byte = 0x0a := by
          simpa [isLineBreak, or_assoc] using hbreak
        rcases hcases with rfl | rfl | rfl <;> exact hspace (by decide)
      rw [dropWhile_cons_of_neg (by simpa using hspace), hbreak,
        if_neg Bool.false_ne_true, if_neg fun h => hspace h.2, nil_append,
        cleanHyperlink_append (by simp), filter_cons_of_pos (by simp [hbreak])]
      rfl

theorem isSafeScheme_none :
  IsSafeScheme none
  := by
  rintro _ ⟨⟩

theorem isSafeScheme_some {letters : List UInt8} :
  IsSafeScheme (some letters) ↔ letters.length = 1 ∨ letters ∈ kSafe
  := by
  simp [IsSafeScheme]

/-- A hyperlink is accepted when its scheme is safe. -/
theorem isSafeHyperlink_iff {uri : List UInt8} :
  isSafeHyperlink uri ↔ IsSafeScheme (browserScheme uri)
  := by
  rw [isSafeHyperlink, browserScheme, cleanHyperlink_eq]
  cases (uri.dropWhile (· ≤ 0x20)).filter (!isLineBreak ·) with
  | nil => exact iff_of_true rfl isSafeScheme_none
  | cons first rest =>
    simp only
    by_cases hscheme : isAlpha first ∧ (rest.dropWhile isSchemeByte).head? = some 0x3a
    · obtain ⟨hfirst, hcolon⟩ := hscheme
      simp only [hfirst, hcolon, Bool.not_true, Bool.false_eq_true, if_false, ne_eq,
        not_true_eq_false, and_self, if_true, isSafeScheme_some]
      by_cases hnil : rest.takeWhile isSchemeByte = []
      · simp [hnil]
      · simp [hnil]
    · rw [if_neg hscheme]
      refine iff_of_true ?_ isSafeScheme_none
      by_cases hfirst : isAlpha first
      · have hcolon : (rest.dropWhile isSchemeByte).head? ≠ some 0x3a := fun h =>
          hscheme ⟨hfirst, h⟩
        simp [hcolon]
      · simp [hfirst]

/-! ### The destination -/

variable {byte : UInt8}

theorem isUnsafe_iff :
  isUnsafe byte ↔ byte ≤ 0x20 ∨ byte = 0x7f ∨ byte = 0x28 ∨ byte = 0x29 ∨ byte = 0x3c ∨
    byte = 0x3e ∨ byte = 0x22 ∨ byte = 0x5c
  := by
  simp [isUnsafe, or_assoc]

theorem isEntityByte_of_isAlphanumeric (h : isAlphanumeric byte) :
  isEntityByte byte
  := by
  rw [isEntityByte, h]
  rfl

/-- What comes first in a destination, other than a percent sign or an ampersand, comes first in
the address. -/
theorem of_markdownLinkDestination_append {front rest uri : List UInt8}
    (hfront : ∀ byte ∈ front, byte ≠ 0x25 ∧ byte ≠ 0x26)
    (h : markdownLinkDestination uri = front ++ rest) :
  ∃ after, uri = front ++ after
  := by
  induction front generalizing uri with
  | nil => exact ⟨uri, rfl⟩
  | cons byte front ih =>
    obtain ⟨⟨hpercent, hamp⟩, htail⟩ := forall_mem_cons.mp hfront
    cases uri with
    | nil => cases h
    | cons first after =>
      rw [markdownLinkDestination] at h
      split_ifs at h with hfirst hentity hunsafe
      · exact absurd (cons.inj h).1.symm hamp
      · exact absurd (cons.inj h).1.symm hamp
      · exact absurd (cons.inj h).1.symm hpercent
      · obtain ⟨rfl, hrest⟩ := cons.inj h
        obtain ⟨after, rfl⟩ := ih htail hrest
        exact ⟨after, rfl⟩

theorem startsEntity_of_append {name rest text : List UInt8} (hne : name ≠ [])
    (hall : ∀ byte ∈ name, isAlphanumeric byte)
    (h : text = 0x23 :: name ++ 0x3b :: rest ∨ text = name ++ 0x3b :: rest) :
  startsEntity text
  := by
  have hname : ∀ byte ∈ name, isEntityByte byte := fun byte hbyte =>
    isEntityByte_of_isAlphanumeric (hall byte hbyte)
  have hstop : isEntityByte 0x3b = false := rfl
  have hdrop : (if text.head? = some 0x23 then text.tail else text) = name ++ 0x3b :: rest := by
    rcases h with rfl | rfl
    · rfl
    · obtain ⟨first, name, rfl⟩ := exists_cons_of_ne_nil hne
      apply if_neg
      rintro ⟨⟩
      exact absurd (hall 0x23 mem_cons_self) (by decide)
  rw [startsEntity, hdrop]
  simp [takeWhile_append_of_pos hname, dropWhile_append_of_pos hname, hne, hstop]

theorem hexDigit_ne {value small : UInt8} (h : value.toNat < 16)
    (hsmall : Json.hexValue small = none) :
  Percent.hexDigit value ≠ small
  := by
  rintro rfl
  rw [Percent.hexValue_hexDigit h] at hsmall
  cases hsmall

theorem toNat_shiftRight_lt (byte : UInt8) :
  (byte >>> 4).toNat < 16 ∧ (byte &&& 0xf).toNat < 16
  := by
  constructor
  · have hbyte := byte.toNat_lt
    rw [UInt8.toNat_shiftRight, Nat.shiftRight_eq_div_pow]
    exact Nat.div_lt_of_lt_mul hbyte
  · rw [UInt8.toNat_and]
    exact lt_of_le_of_lt Nat.and_le_right (by decide)

variable {names : List UInt8 → Option (List UInt8)}

/-- What a CommonMark parser reads from a destination is the address, percent-encoded. -/
theorem decode_markdownLinkDestination (hnames : IsEntityTable names) (uri : List UInt8) :
  CommonMark.decode names (markdownLinkDestination uri) = Percent.encode isUnsafe uri
  := by
  induction uri with
  | nil =>
    rw [markdownLinkDestination, CommonMark.decode_nil]
    rfl
  | cons byte rest ih =>
    rw [markdownLinkDestination]
    split_ifs with hamp hentity hunsafe
    · subst hamp
      rw [encode_cons_kept rfl, ← ih, cons_append,
        CommonMark.decode_reference (CommonMark.reference_amp hnames _)]
      rfl
    · subst hamp
      rw [encode_cons_kept rfl, ← ih, CommonMark.decode_amp]
      rw [Option.eq_none_iff_forall_ne_some]
      rintro ⟨char, length⟩ hreference
      obtain ⟨name, after, hne, hall, htext⟩ := CommonMark.reference_spec hnames hreference
      apply hentity
      have hplain : ∀ byte ∈ 0x23 :: (name ++ [0x3b]), byte ≠ 0x25 ∧ byte ≠ 0x26 := by
        intro byte hbyte
        rw [mem_cons, mem_append, mem_singleton] at hbyte
        rcases hbyte with rfl | hbyte | rfl
        · decide
        · constructor <;> rintro rfl <;> exact absurd (hall _ hbyte) (by decide)
        · decide
      rcases htext with htext | htext
      · obtain ⟨after, hrest⟩ := of_markdownLinkDestination_append
          hplain (by simpa using htext)
        exact startsEntity_of_append hne hall (Or.inl (by simpa using hrest))
      · obtain ⟨after, hrest⟩ := of_markdownLinkDestination_append
          (forall_mem_cons.mp hplain).2 (by simpa using htext)
        exact startsEntity_of_append hne hall (Or.inr (by simpa using hrest))
    · obtain ⟨hhigh, hlow⟩ := toNat_shiftRight_lt byte
      rw [encode_cons_escaped hunsafe, ← ih, encodeByte, cons_append,
        CommonMark.decode_cons (by decide) (by decide), cons_append,
        CommonMark.decode_cons (hexDigit_ne hhigh rfl) (hexDigit_ne hhigh rfl), cons_append,
        CommonMark.decode_cons (hexDigit_ne hlow rfl) (hexDigit_ne hlow rfl), nil_append]
    · have hbackslash : byte ≠ 0x5c := by
        rintro rfl
        exact hunsafe rfl
      rw [encode_cons_kept (by simpa using hunsafe), ← ih,
        CommonMark.decode_cons hamp hbackslash]

/-! ### The bytes of a destination -/

theorem isUnsafe_hexDigit {value : UInt8} (h : value.toNat < 16) :
  isUnsafe (Percent.hexDigit value) = false
  := by
  have hall : ∀ digit : Fin 16, isUnsafe (Percent.hexDigit (UInt8.ofNat digit.val)) = false := by
    decide
  have hvalue := hall ⟨value.toNat, h⟩
  rwa [UInt8.ofNat_toNat] at hvalue

theorem isUnsafe_encodeByte (byte : UInt8) :
  ∀ encoded ∈ Percent.encodeByte byte, isUnsafe encoded = false
  := by
  obtain ⟨hhigh, hlow⟩ := toNat_shiftRight_lt byte
  intro encoded hencoded
  rw [encodeByte, mem_cons, mem_cons, mem_singleton] at hencoded
  rcases hencoded with rfl | rfl | rfl
  · rfl
  · exact isUnsafe_hexDigit hhigh
  · exact isUnsafe_hexDigit hlow

theorem isUnsafe_encode (uri : List UInt8) :
  ∀ byte ∈ Percent.encode isUnsafe uri, isUnsafe byte = false
  := by
  intro byte hbyte
  obtain ⟨first, -, hbyte⟩ := mem_flatMap.mp hbyte
  split at hbyte
  case isTrue => exact isUnsafe_encodeByte first byte hbyte
  case isFalse hunsafe =>
    rw [mem_singleton.mp hbyte]
    simpa using hunsafe

theorem isUnsafe_markdownLinkDestination (uri : List UInt8) :
  ∀ byte ∈ markdownLinkDestination uri, isUnsafe byte = false
  := by
  induction uri with
  | nil => simp [markdownLinkDestination]
  | cons first rest ih =>
    rw [markdownLinkDestination]
    split_ifs with hamp hentity hunsafe
    · have hamp : ∀ byte ∈ 0x26 :: CommonMark.kAmp ++ [0x3b], isUnsafe byte = false :=
        all_iff_forall_prop.mp rfl
      intro byte hbyte
      rw [← singleton_append (l := markdownLinkDestination rest), ← append_assoc,
        mem_append] at hbyte
      exact hbyte.elim (hamp byte) (ih byte)
    · rw [forall_mem_cons]
      exact ⟨rfl, ih⟩
    · rw [forall_mem_append]
      exact ⟨isUnsafe_encodeByte first, ih⟩
    · rw [forall_mem_cons]
      exact ⟨by simpa using hunsafe, ih⟩

theorem markdownLinkDestination_ne_nil {uri : List UInt8} (h : uri ≠ []) :
  markdownLinkDestination uri ≠ []
  := by
  cases uri with
  | nil => exact absurd rfl h
  | cons first rest =>
    rw [markdownLinkDestination]
    split_ifs <;> exact cons_ne_nil _ _

theorem isBareDestination (uri : List UInt8) (h : uri ≠ []) :
  IsBareDestination (markdownLinkDestination uri)
  := by
  have hsafe : ∀ byte ∈ markdownLinkDestination uri, ¬ (byte ≤ 0x20 ∨ byte = 0x7f ∨ byte = 0x28 ∨
      byte = 0x29 ∨ byte = 0x3c ∨ byte = 0x3e ∨ byte = 0x22 ∨ byte = 0x5c) := by
    intro byte hbyte hunsafe
    have hfalse := isUnsafe_markdownLinkDestination uri byte hbyte
    rw [isUnsafe_iff.mpr hunsafe] at hfalse
    cases hfalse
  simp only [not_or] at hsafe
  constructor
  · exact markdownLinkDestination_ne_nil h
  · intro byte hbyte
    obtain ⟨hlow, hdelete, -⟩ := hsafe byte hbyte
    exact ⟨UInt8.not_le.mp hlow, hdelete⟩
  · intro byte hbyte
    obtain ⟨-, -, hopen, hclose, hless, hgreater, -⟩ := hsafe byte hbyte
    exact ⟨hopen, hclose, hless, hgreater⟩

/-! ### The scheme of a destination -/

theorem lt_of_isSchemeByte (h : isSchemeByte byte) :
  0x20 < byte ∧ isLineBreak byte = false ∧ byte ≠ 0x25
  := by
  have hlow : 0x20 < byte := by
    by_contra hle
    have hall : (range 0x21).all fun value => isSchemeByte (UInt8.ofNat value) = false := rfl
    have hvalue := all_eq_true.mp hall byte.toNat
      (mem_range.mpr (Nat.lt_succ_of_le (UInt8.not_lt.mp hle)))
    rw [UInt8.ofNat_toNat, h] at hvalue
    cases hvalue
  refine ⟨hlow, ?_, ?_⟩
  · rw [Bool.eq_false_iff]
    intro hbreak
    have hcases : byte = 0x09 ∨ byte = 0x0d ∨ byte = 0x0a := by
      simpa [isLineBreak, or_assoc] using hbreak
    rcases hcases with rfl | rfl | rfl <;> exact absurd hlow (by decide)
  · rintro rfl
    cases h

theorem isSchemeByte_of_isAlpha (h : isAlpha byte) :
  isSchemeByte byte
  := by
  simp [isSchemeByte, isAlphanumeric, h]

theorem browserScheme_append {first : UInt8} {scheme : List UInt8} (hfirst : isAlpha first)
    (hscheme : ∀ byte ∈ scheme, isSchemeByte byte) (after : List UInt8) :
  browserScheme (first :: scheme ++ 0x3a :: after) = some ((first :: scheme).map tolower)
  := by
  obtain ⟨hlow, hbreak, -⟩ := lt_of_isSchemeByte (isSchemeByte_of_isAlpha hfirst)
  have hkept : scheme.filter (!isLineBreak ·) = scheme := by
    rw [filter_eq_self]
    intro byte hbyte
    rw [(lt_of_isSchemeByte (hscheme byte hbyte)).2.1]
    rfl
  have hcolon : isSchemeByte 0x3a = false := rfl
  have hcolon' : isLineBreak 0x3a = false := rfl
  rw [browserScheme, cons_append,
    dropWhile_cons_of_neg (by simpa using UInt8.not_le.mpr hlow),
    filter_cons_of_pos (by simp [hbreak]), filter_append, hkept,
    filter_cons_of_pos (by simp [hcolon'])]
  simp [hfirst, takeWhile_append_of_pos hscheme, dropWhile_append_of_pos hscheme, hcolon]

theorem of_browserScheme {url letters : List UInt8} (hurl : ∀ byte ∈ url, 0x20 < byte)
    (h : browserScheme url = some letters) :
  ∃ first scheme after, isAlpha first ∧ (∀ byte ∈ scheme, isSchemeByte byte) ∧
    url = first :: scheme ++ 0x3a :: after
  := by
  have hdrop : url.dropWhile (· ≤ 0x20) = url := by
    cases url with
    | nil => rfl
    | cons first rest =>
      apply dropWhile_cons_of_neg
      simpa using hurl first mem_cons_self
  have hfilter : url.filter (!isLineBreak ·) = url := by
    rw [filter_eq_self]
    intro byte hbyte
    rw [Bool.not_eq_true', Bool.eq_false_iff]
    intro hbreak
    have hcases : byte = 0x09 ∨ byte = 0x0d ∨ byte = 0x0a := by
      simpa [isLineBreak, or_assoc] using hbreak
    rcases hcases with rfl | rfl | rfl <;> exact absurd (hurl _ hbyte) (by decide)
  rw [browserScheme, hdrop, hfilter] at h
  cases url with
  | nil => cases h
  | cons first rest =>
    simp only at h
    split at h
    case isTrue hscheme =>
      obtain ⟨after, hafter⟩ := head?_eq_some_iff.mp hscheme.2
      refine ⟨first, rest.takeWhile isSchemeByte, after, hscheme.1,
        fun byte => mem_takeWhile_imp, ?_⟩
      rw [cons_append, ← hafter, takeWhile_append_dropWhile]
    case isFalse => cases h

/-- Percent-encoding gives an address no scheme that it did not have. -/
theorem isSafeScheme_encode {uri : List UInt8} (h : IsSafeScheme (browserScheme uri)) :
  IsSafeScheme (browserScheme (Percent.encode isUnsafe uri))
  := by
  intro letters hletters
  have hlow : ∀ byte ∈ encode isUnsafe uri, 0x20 < byte := by
    intro byte hbyte
    by_contra hle
    have hunsafe := isUnsafe_encode uri byte hbyte
    rw [isUnsafe_iff.mpr (Or.inl (UInt8.not_lt.mp hle))] at hunsafe
    cases hunsafe
  obtain ⟨first, scheme, after, hfirst, hscheme, heq⟩ := of_browserScheme hlow hletters
  have hpercent : 0x25 ∉ first :: scheme ++ [0x3a] := by
    intro hmem
    rw [cons_append, mem_cons, mem_append, mem_singleton] at hmem
    rcases hmem with rfl | hmem | hmem
    · cases hfirst
    · exact (lt_of_isSchemeByte (hscheme _ hmem)).2.2 rfl
    · cases hmem
  obtain ⟨after', rfl, -⟩ := of_encode_append hpercent (by simpa using heq)
  rw [heq, browserScheme_append hfirst hscheme] at hletters
  apply h letters
  rw [append_assoc, singleton_append, browserScheme_append hfirst hscheme]
  exact hletters

theorem hexValue_of_isUnsafe (h : isUnsafe byte) :
  Json.hexValue byte = none
  := by
  rcases isUnsafe_iff.mp h with hlow | rfl | rfl | rfl | rfl | rfl | rfl | rfl
  · have hall : (range 0x21).all fun value =>
        (Json.hexValue (UInt8.ofNat value)).isNone := rfl
    have hvalue := all_eq_true.mp hall byte.toNat
      (mem_range.mpr (Nat.lt_succ_of_le hlow))
    rwa [UInt8.ofNat_toNat, Option.isNone_iff_eq_none] at hvalue
  all_goals rfl

/-- A hyperlink that is accepted has no scheme that runs, neither as it is nor as it is read from
Markdown; and its destination is the address, percent-encoded. -/
theorem markdownLinkDestination_spec (hnames : IsEntityTable names) (uri : List UInt8)
    (hsafe : isSafeHyperlink uri) :
  IsSafeScheme (browserScheme uri) ∧
    IsSafeScheme (browserScheme (CommonMark.decode names (markdownLinkDestination uri))) ∧
    (uri ≠ [] → IsBareDestination (markdownLinkDestination uri)) ∧
    Percent.decode (CommonMark.decode names (markdownLinkDestination uri)) = Percent.decode uri
  := by
  have hscheme := isSafeHyperlink_iff.mp hsafe
  rw [decode_markdownLinkDestination hnames]
  exact ⟨hscheme, isSafeScheme_encode hscheme, isBareDestination uri,
    Percent.decode_encode rfl (fun byte => hexValue_of_isUnsafe) uri⟩

/-- Nothing but the ampersand has a name. -/
def ampName (name : List UInt8) : Option (List UInt8) :=
  if name = CommonMark.kAmp then some [0x26] else none

theorem isEntityTable_ampName :
  IsEntityTable ampName
  := by
  constructor
  · intro name text h
    rw [ampName] at h
    split at h
    case isTrue hname =>
      rw [hname]
      exact ⟨cons_ne_nil _ _, all_iff_forall_prop.mp rfl⟩
    case isFalse => cases h
  · rfl

/-- The address `http:(&amp;`. -/
theorem markdownLinkDestination_spec_http :
  let uri : List UInt8 := [0x68, 0x74, 0x74, 0x70, 0x3a, 0x28, 0x26, 0x61, 0x6d, 0x70, 0x3b]
  IsSafeScheme (browserScheme uri) ∧
    IsSafeScheme (browserScheme (CommonMark.decode ampName (markdownLinkDestination uri))) ∧
    (uri ≠ [] → IsBareDestination (markdownLinkDestination uri)) ∧
    Percent.decode (CommonMark.decode ampName (markdownLinkDestination uri)) = Percent.decode uri
  := markdownLinkDestination_spec isEntityTable_ampName _ (by decide)

/-- An empty address is accepted, and there is no destination for it. -/
theorem markdownLinkDestination_empty :
  isSafeHyperlink [] ∧ ¬ IsBareDestination (markdownLinkDestination [])
  := by
  refine ⟨rfl, fun h => h.nonempty ?_⟩
  rw [markdownLinkDestination]

end GRParse.Render
