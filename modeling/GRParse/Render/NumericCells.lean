import GRParse.Lib.Json
import GRParse.Lib.Regex
import Mathlib.Data.List.DropRight

/-!
# Numeric cells

A column of a table is aligned by what its cells are taken for, and a cell is taken for a number
when the reference's language would read it as one.  Here are the readers of integers, of floating
point numbers and of digits in groups of three, and the grammars that they are to accept.
-/

namespace GRParse.Render

open List Option Language

open Json (isDigit)
open Regexes

/-! ### The readers -/

/-- The loop of `scan_digits`, with the text at which it began. -/
def scanDigitsFrom (start : List UInt8) (sawDigit prevUnderscore : Bool) :
    List UInt8 → Bool × List UInt8
  | [] => if prevUnderscore then (false, []) else (sawDigit, if sawDigit then [] else start)
  | byte :: rest =>
    if isDigit byte then scanDigitsFrom start true false rest
    else if byte = 0x5f then
      if !sawDigit || prevUnderscore then (false, byte :: rest)
      else scanDigitsFrom start sawDigit true rest
    else if prevUnderscore then (false, byte :: rest)
    else (sawDigit, if sawDigit then byte :: rest else start)

/-- `scan_digits`: whether there are digits, and the text from the cursor on, which may have moved
although the digits are refused. -/
def scanDigits (text : List UInt8) : Bool × List UInt8 :=
  scanDigitsFrom text false false text

/-- `std::tolower`. -/
def tolower (byte : UInt8) : UInt8 :=
  if 0x41 ≤ byte ∧ byte ≤ 0x5a then byte + 0x20 else byte

/-- `matches_keyword`: the text behind a word. -/
def matchesKeyword (text word : List UInt8) : Option (List UInt8) :=
  if text.length < word.length then none
  else if (text.take word.length).map tolower = word then some (text.drop word.length)
  else none

def isTrimmed (byte : UInt8) : Bool :=
  byte ∈ [0x20, 0x09, 0x0a, 0x0d, 0x0c, 0x0b]

def pythonTrimmed (text : List UInt8) : List UInt8 :=
  (text.dropWhile isTrimmed).rdropWhile isTrimmed

def isSign (byte : UInt8) : Bool :=
  byte = 0x2b || byte = 0x2d

def dropSign : List UInt8 → List UInt8
  | [] => []
  | byte :: rest => if isSign byte then rest else byte :: rest

def isPythonInt (raw : List UInt8) : Bool :=
  scanDigits (dropSign (pythonTrimmed raw)) = (true, [])

def kInfinity : List UInt8 := [0x69, 0x6e, 0x66, 0x69, 0x6e, 0x69, 0x74, 0x79]
def kInf : List UInt8 := [0x69, 0x6e, 0x66]
def kNan : List UInt8 := [0x6e, 0x61, 0x6e]

/-- What `is_python_float` makes of a text: one of the words, or the text that is left to
`std::strtod`. -/
inductive FloatValue where
  | infinity (negative : Bool)
  | nan
  | plain (text : List UInt8)
  deriving DecidableEq

def isExponentMark (byte : UInt8) : Bool :=
  byte = 0x65 || byte = 0x45

/-- The digits of the fraction, behind a point. -/
def scanFraction : List UInt8 → Bool × List UInt8
  | [] => (false, [])
  | byte :: rest => if byte = 0x2e then scanDigits rest else (false, byte :: rest)

/-- The exponent, which ends the text. -/
def endsInExponent : List UInt8 → Bool
  | [] => true
  | byte :: rest => isExponentMark byte && scanDigits (dropSign rest) = (true, [])

/-- The part of `is_python_float` that reads digits. -/
def isPythonDecimal (text : List UInt8) : Bool :=
  let (leadingDigits, rest) := scanDigits text
  let (fractionDigits, rest) := scanFraction rest
  (leadingDigits || fractionDigits) && endsInExponent rest

def isPythonFloat (raw : List UInt8) : Option FloatValue :=
  let text := pythonTrimmed raw
  let negative := text.head? = some 0x2d
  let text := dropSign text
  match (matchesKeyword text kInfinity).or (matchesKeyword text kInf) with
  | some rest => if rest = [] then some (.infinity negative) else none
  | none =>
    match matchesKeyword text kNan with
    | some rest => if rest = [] then some .nan else none
    | none =>
      if isPythonDecimal text then
        some (.plain ((if negative then [0x2d] else []) ++ text.filter (· ≠ 0x5f)))
      else none

/-- The groups of three digits are skipped. -/
def skipGroups : List UInt8 → List UInt8
  | comma :: a :: b :: c :: rest =>
    if comma = 0x2c ∧ isDigit a ∧ isDigit b ∧ isDigit c then skipGroups rest
    else comma :: a :: b :: c :: rest
  | rest => rest

/-- What follows the integer part. -/
def endsInFraction (integerPart : Bool) : List UInt8 → Bool
  | [] => true
  | byte :: rest =>
    byte = 0x2e && (integerPart || rest.takeWhile isDigit ≠ []) && rest.dropWhile isDigit = []

def hasThousandsSeparators (text : List UInt8) : Bool :=
  let digits := ((dropSign text).take 3).takeWhile isDigit
  if digits = [] then endsInFraction false text
  else endsInFraction true (skipGroups ((dropSign text).drop digits.length))

/-! ### The grammars -/

/-- Digits with at most single underscores between them. -/
def digitPart : Language UInt8 :=
  symbol isDigit * KStar.kstar (opt (lit 0x5f) * symbol isDigit)

def sign : Language UInt8 :=
  opt (symbol isSign)

/-- White space before and behind. -/
def padded (core : Language UInt8) : Language UInt8 :=
  KStar.kstar (symbol isTrimmed) * core * KStar.kstar (symbol isTrimmed)

/-- What Python's `int` accepts. -/
def pythonInt : Language UInt8 :=
  padded (sign * digitPart)

/-- A word in letters of either case. -/
def keyword (word : List UInt8) : Language UInt8 :=
  { text | text.map tolower = word }

def pythonExponent : Language UInt8 :=
  symbol isExponentMark * sign * digitPart

/-- The digits with their point. -/
def pythonNumber : Language UInt8 :=
  opt digitPart * lit 0x2e * digitPart + digitPart * opt (lit 0x2e)

/-- What Python's `float` accepts. -/
def pythonFloat : Language UInt8 :=
  padded (sign * (pythonNumber * opt pythonExponent + (keyword kInfinity + keyword kInf) +
    keyword kNan))

/-- The digits of a number that has an underscore before its point, or behind its fraction. -/
def misplacedNumber : Language UInt8 :=
  digitPart * lit 0x5f * lit 0x2e * digitPart + digitPart * lit 0x2e * digitPart * lit 0x5f

def misplacedUnderscore : Language UInt8 :=
  padded (sign * (misplacedNumber * opt pythonExponent))

/-- One to three digits. -/
def shortDigits : Language UInt8 :=
  symbol isDigit * opt (symbol isDigit) * opt (symbol isDigit)

/-- A comma and three digits. -/
def commaGroup : Language UInt8 :=
  lit 0x2c * symbol isDigit * symbol isDigit * symbol isDigit

def thousandsInteger : Language UInt8 :=
  sign * shortDigits * KStar.kstar commaGroup

/-- What the expression
`^(([+-]?[0-9]{1,3})(?:,([0-9]{3}))*)?(?(1)\.[0-9]*|\.[0-9]+)?$` spells: behind an integer part the
fraction may lack its digits. -/
def thousands : Language UInt8 :=
  thousandsInteger * opt (lit 0x2e * KStar.kstar (symbol isDigit)) +
    opt (lit 0x2e * plus (symbol isDigit))

/-! ### Runs of digits -/

/-- No digit comes first. -/
def NoDigit (text : List UInt8) : Prop :=
  ∀ byte ∈ text.head?, isDigit byte = false

/-- Neither a digit nor an underscore comes first. -/
def Stops (text : List UInt8) : Prop :=
  ∀ byte ∈ text.head?, isDigit byte = false ∧ byte ≠ 0x5f

variable {text : List UInt8}

theorem Stops.noDigit (h : Stops text) :
  NoDigit text
  := fun byte hbyte => (h byte hbyte).1

theorem stops_nil :
  Stops []
  := by
  intro byte hbyte
  cases hbyte

variable {byte : UInt8}

theorem stops_cons (rest : List UInt8) (hdigit : isDigit byte = false)
    (hunderscore : byte ≠ 0x5f) :
  Stops (byte :: rest)
  := by
  rintro _ ⟨⟩
  exact ⟨hdigit, hunderscore⟩

variable {word : List UInt8}

theorem mem_group :
  word ∈ opt (lit 0x5f) * symbol isDigit ↔
    ∃ digit, isDigit digit ∧ (word = [digit] ∨ word = [0x5f, digit])
  := by
  rw [mem_mul]
  constructor
  · rintro ⟨front, hfront, _, ⟨digit, hdigit, rfl⟩, rfl⟩
    use digit, hdigit
    rcases mem_opt.mp hfront with hfront | rfl
    · right
      rw [mem_lit.mp hfront]
      rfl
    · left
      rfl
  · rintro ⟨digit, hdigit, rfl | rfl⟩
    · exact ⟨[], mem_opt.mpr (Or.inr rfl), [digit], ⟨digit, hdigit, rfl⟩, rfl⟩
    · exact ⟨[0x5f], mem_opt.mpr (Or.inl (mem_lit.mpr rfl)), [digit], ⟨digit, hdigit, rfl⟩, rfl⟩

theorem mem_digitPart :
  word ∈ digitPart ↔ ∃ (digit : UInt8) (groups : List (List UInt8)), isDigit digit ∧
    (∀ group ∈ groups, group ∈ opt (lit 0x5f) * symbol isDigit) ∧
    word = digit :: groups.flatten
  := by
  rw [digitPart, mem_mul]
  constructor
  · rintro ⟨_, ⟨digit, hdigit, rfl⟩, rest, hrest, rfl⟩
    obtain ⟨groups, rfl, hgroups⟩ := mem_kstar.mp hrest
    exact ⟨digit, groups, hdigit, hgroups, rfl⟩
  · rintro ⟨digit, groups, hdigit, hgroups, rfl⟩
    exact ⟨[digit], ⟨digit, hdigit, rfl⟩, groups.flatten,
      mem_kstar.mpr ⟨groups, rfl, hgroups⟩, rfl⟩

theorem isDigit_underscore :
  isDigit 0x5f = false
  := rfl

variable {groups : List (List UInt8)}

theorem scanDigitsFrom_groups {start rest : List UInt8}
    (h : ∀ group ∈ groups, group ∈ opt (lit 0x5f) * symbol isDigit) :
  scanDigitsFrom start true false (groups.flatten ++ rest) = scanDigitsFrom start true false rest
  := by
  induction groups with
  | nil => rfl
  | cons group groups ih =>
    obtain ⟨hgroup, hgroups⟩ := forall_mem_cons.mp h
    obtain ⟨digit, hdigit, rfl | rfl⟩ := mem_group.mp hgroup
    · simpa [scanDigitsFrom, hdigit] using ih hgroups
    · simpa [scanDigitsFrom, hdigit, isDigit_underscore] using ih hgroups

theorem scanDigits_run {run : List UInt8} (h : run ∈ digitPart) (rest : List UInt8) :
  scanDigits (run ++ rest) = scanDigitsFrom (run ++ rest) true false rest
  := by
  obtain ⟨digit, groups, hdigit, hgroups, rfl⟩ := mem_digitPart.mp h
  rw [scanDigits, cons_append, scanDigitsFrom, if_pos hdigit]
  apply scanDigitsFrom_groups hgroups

/-- Digits are scanned up to something else. -/
theorem scanDigits_append {run rest : List UInt8} (h : run ∈ digitPart) (hrest : Stops rest) :
  scanDigits (run ++ rest) = (true, rest)
  := by
  rw [scanDigits_run h]
  cases rest with
  | nil => rfl
  | cons byte rest =>
    obtain ⟨hdigit, hunderscore⟩ := hrest byte rfl
    simp [scanDigitsFrom, hdigit, hunderscore]

/-- Digits that end in an underscore are refused, with the cursor behind it. -/
theorem scanDigits_cut {run rest : List UInt8} (h : run ∈ digitPart) (hrest : NoDigit rest) :
  scanDigits (run ++ 0x5f :: rest) = (false, rest)
  := by
  rw [scanDigits_run h]
  cases rest with
  | nil => rfl
  | cons byte rest =>
    have hdigit := hrest byte rfl
    simp [scanDigitsFrom, hdigit, isDigit_underscore]

theorem scanDigits_none (h : NoDigit text) :
  scanDigits text = (false, text)
  := by
  cases text with
  | nil => rfl
  | cons byte rest =>
    have hdigit := h byte rfl
    simp [scanDigits, scanDigitsFrom, hdigit]

theorem exists_groups (text : List UInt8) :
  ∃ (groups : List (List UInt8)) (rest : List UInt8),
    (∀ group ∈ groups, group ∈ opt (lit 0x5f) * symbol isDigit) ∧
    text = groups.flatten ++ rest ∧ (Stops rest ∨ ∃ after, rest = 0x5f :: after ∧ NoDigit after)
  := by
  have hdone : ∀ rest : List UInt8, (Stops rest ∨ ∃ after, rest = 0x5f :: after ∧ NoDigit after) →
      ∃ (groups : List (List UInt8)) (rest' : List UInt8),
        (∀ group ∈ groups, group ∈ opt (lit 0x5f) * symbol isDigit) ∧
        rest = groups.flatten ++ rest' ∧
        (Stops rest' ∨ ∃ after, rest' = 0x5f :: after ∧ NoDigit after) :=
    fun rest h => ⟨[], rest, by simp, rfl, h⟩
  induction hlength : text.length using Nat.strong_induction_on generalizing text with
  | _ length ih =>
    cases text with
    | nil => exact hdone [] (Or.inl stops_nil)
    | cons byte rest =>
      by_cases hdigit : isDigit byte
      · obtain ⟨groups, rest', hgroups, rfl, hstop⟩ := ih rest.length (by simp at hlength; omega)
          rest rfl
        exact ⟨[byte] :: groups, rest', forall_mem_cons.mpr
          ⟨mem_group.mpr ⟨byte, hdigit, Or.inl rfl⟩, hgroups⟩, rfl, hstop⟩
      · by_cases hunderscore : byte = 0x5f
        · subst hunderscore
          by_cases hnext : NoDigit rest
          · exact hdone _ (Or.inr ⟨rest, rfl, hnext⟩)
          · obtain ⟨digit, rest, rfl⟩ : ∃ digit rest', rest = digit :: rest' := by
              cases rest with
              | nil => exact absurd stops_nil.noDigit hnext
              | cons digit rest => exact ⟨digit, rest, rfl⟩
            have hdigit : isDigit digit := by
              by_contra hno
              apply hnext
              rintro _ ⟨⟩
              simpa using hno
            obtain ⟨groups, rest', hgroups, rfl, hstop⟩ := ih rest.length
              (by simp at hlength; omega) rest rfl
            exact ⟨[0x5f, digit] :: groups, rest', forall_mem_cons.mpr
              ⟨mem_group.mpr ⟨digit, hdigit, Or.inr rfl⟩, hgroups⟩, rfl, hstop⟩
        · exact hdone _ (Or.inl (stops_cons _ (by simpa using hdigit) hunderscore))

/-- Every text begins with digits, or with digits and an underscore that ends them, or with no
digit. -/
theorem exists_run (text : List UInt8) :
  (∃ run rest, run ∈ digitPart ∧ text = run ++ rest ∧ Stops rest) ∨
    (∃ run rest, run ∈ digitPart ∧ text = run ++ 0x5f :: rest ∧ NoDigit rest) ∨ NoDigit text
  := by
  by_cases hno : NoDigit text
  · exact Or.inr (Or.inr hno)
  cases text with
  | nil => exact absurd stops_nil.noDigit hno
  | cons digit rest =>
    have hdigit : isDigit digit := by
      by_contra hdigit
      apply hno
      rintro _ ⟨⟩
      simpa using hdigit
    obtain ⟨groups, rest, hgroups, rfl, hstop⟩ := exists_groups rest
    have hrun := mem_digitPart.mpr ⟨digit, groups, hdigit, hgroups, rfl⟩
    rcases hstop with hstop | ⟨after, rfl, hafter⟩
    · exact Or.inl ⟨_, rest, hrun, rfl, hstop⟩
    · exact Or.inr (Or.inl ⟨_, after, hrun, rfl, hafter⟩)

/-- What digits were read stands before the cursor. -/
theorem run_of_scanDigits {rest : List UInt8} (h : scanDigits text = (true, rest)) :
  ∃ run ∈ digitPart, text = run ++ rest
  := by
  rcases exists_run text with ⟨run, rest, hrun, rfl, hrest⟩ | ⟨run, rest, hrun, rfl, hrest⟩ | hno
  · rw [scanDigits_append hrun hrest] at h
    obtain ⟨-, rfl⟩ := Prod.mk.inj h
    exact ⟨run, hrun, rfl⟩
  · rw [scanDigits_cut hrun hrest] at h
    cases h
  · rw [scanDigits_none hno] at h
    cases h

/-- Where digits are refused, the cursor stays, or is behind their underscore. -/
theorem cut_of_scanDigits {rest : List UInt8} (h : scanDigits text = (false, rest)) :
  text = rest ∨ ∃ run ∈ digitPart, text = run ++ 0x5f :: rest
  := by
  rcases exists_run text with ⟨run, rest, hrun, rfl, hrest⟩ | ⟨run, rest, hrun, rfl, hrest⟩ | hno
  · rw [scanDigits_append hrun hrest] at h
    cases h
  · rw [scanDigits_cut hrun hrest] at h
    obtain ⟨-, rfl⟩ := Prod.mk.inj h
    exact Or.inr ⟨run, hrun, rfl⟩
  · rw [scanDigits_none hno] at h
    exact Or.inl (Prod.mk.inj h).2

theorem scanDigits_eq_iff :
  scanDigits text = (true, []) ↔ text ∈ digitPart
  := by
  constructor
  · intro h
    obtain ⟨run, hrun, rfl⟩ := run_of_scanDigits h
    rwa [append_nil]
  · intro h
    simpa using scanDigits_append h stops_nil

/-! ### Signs and white space -/

/-- No sign comes first. -/
def Unsigned (language : Language UInt8) : Prop :=
  ∀ word ∈ language, ∀ byte ∈ word.head?, isSign byte = false

theorem dropSign_of_isSign (h : isSign byte) (rest : List UInt8) :
  dropSign (byte :: rest) = rest
  := if_pos h

theorem dropSign_of_unsigned (h : ∀ byte ∈ text.head?, isSign byte = false) :
  dropSign text = text
  := by
  cases text with
  | nil => rfl
  | cons byte rest => simp [dropSign, h byte rfl]

variable {language : Language UInt8}

theorem mem_sign_mul (h : Unsigned language) :
  text ∈ sign * language ↔ dropSign text ∈ language
  := by
  rw [mem_mul]
  constructor
  · rintro ⟨front, hfront, word, hword, rfl⟩
    rcases mem_opt.mp hfront with ⟨byte, hbyte, rfl⟩ | rfl
    · rwa [singleton_append, dropSign_of_isSign hbyte]
    · rwa [nil_append, dropSign_of_unsigned (h word hword)]
  · intro hword
    by_cases hsigned : ∀ byte ∈ text.head?, isSign byte = false
    · rw [dropSign_of_unsigned hsigned] at hword
      exact ⟨[], mem_opt.mpr (Or.inr rfl), text, hword, rfl⟩
    · cases text with
      | nil => exact absurd (fun _ h => nomatch h) hsigned
      | cons byte rest =>
        have hbyte : isSign byte := by simpa using hsigned
        rw [dropSign_of_isSign hbyte] at hword
        exact ⟨[byte], mem_opt.mpr (Or.inl ⟨byte, hbyte, rfl⟩), rest, hword, rfl⟩

/-- No byte of a word is trimmed. -/
def Unpadded (language : Language UInt8) : Prop :=
  ∀ byte, isTrimmed byte → Avoids language byte

theorem pythonTrimmed_append {before word after : List UInt8}
    (hbefore : ∀ byte ∈ before, isTrimmed byte)
    (hword : ∀ byte ∈ word, isTrimmed byte = false) (hafter : ∀ byte ∈ after, isTrimmed byte) :
  pythonTrimmed (before ++ word ++ after) = word
  := by
  have hdrop :
      (before ++ word ++ after).dropWhile isTrimmed = (word ++ after).dropWhile isTrimmed := by
    rw [append_assoc, dropWhile_append_of_pos hbefore]
  rw [pythonTrimmed, hdrop]
  cases word with
  | nil =>
    rw [nil_append, dropWhile_eq_nil_iff.mpr hafter]
    rfl
  | cons byte word =>
    have hbyte := hword byte mem_cons_self
    have hlast : ∀ h : byte :: word ≠ [], ¬ isTrimmed ((byte :: word).getLast h) := by
      intro h
      rw [hword _ (getLast_mem h)]
      exact Bool.false_ne_true
    rw [cons_append, dropWhile_cons_of_neg (by rw [hbyte]; exact Bool.false_ne_true),
      ← cons_append, rdropWhile, reverse_append,
      dropWhile_append_of_pos (by simpa using hafter), ← rdropWhile]
    exact rdropWhile_eq_self_iff.mpr hlast

variable {raw : List UInt8}

theorem mem_padded (h : Unpadded language) :
  raw ∈ padded language ↔ pythonTrimmed raw ∈ language
  := by
  rw [padded, mem_mul]
  constructor
  · rintro ⟨_, ⟨before, hbefore, word, hword, rfl⟩, after, hafter, rfl⟩
    have hnone : ∀ byte ∈ word, isTrimmed byte = false := by
      intro byte hbyte
      rw [Bool.eq_false_iff]
      intro htrimmed
      exact h byte htrimmed word hword hbyte
    rwa [pythonTrimmed_append (mem_kstar_symbol.mp hbefore) hnone (mem_kstar_symbol.mp hafter)]
  · intro hmem
    refine ⟨raw.takeWhile isTrimmed ++ pythonTrimmed raw,
      ⟨raw.takeWhile isTrimmed, mem_kstar_symbol.mpr fun byte => mem_takeWhile_imp,
        pythonTrimmed raw, hmem, rfl⟩,
      (raw.dropWhile isTrimmed).rtakeWhile isTrimmed,
      mem_kstar_symbol.mpr fun byte => mem_rtakeWhile_imp, ?_⟩
    rw [append_assoc, pythonTrimmed, rdropWhile_append_rtakeWhile,
      takeWhile_append_dropWhile]

/-! ### Heads of words -/

theorem head_of_mem_digitPart {run : List UInt8} (h : run ∈ digitPart) (rest : List UInt8) :
  ∃ digit after, isDigit digit ∧ run ++ rest = digit :: after
  := by
  obtain ⟨digit, groups, hdigit, -, rfl⟩ := mem_digitPart.mp h
  exact ⟨digit, groups.flatten ++ rest, hdigit, rfl⟩

theorem isSign_of_isDigit {digit : UInt8} (h : isDigit digit) :
  isSign digit = false
  := by
  rw [Bool.eq_false_iff]
  intro hsign
  simp only [isSign, Bool.or_eq_true, decide_eq_true_eq] at hsign
  rcases hsign with rfl | rfl <;> cases h

theorem unsigned_digitPart :
  Unsigned digitPart
  := by
  intro run hrun byte hbyte
  obtain ⟨digit, after, hdigit, heq⟩ := head_of_mem_digitPart hrun []
  rw [append_nil] at heq
  subst heq
  cases hbyte
  exact isSign_of_isDigit hdigit

theorem mem_pythonExponent :
  word ∈ pythonExponent ↔
    ∃ mark rest, isExponentMark mark ∧ dropSign rest ∈ digitPart ∧ word = mark :: rest
  := by
  rw [pythonExponent, mul_assoc, mem_mul]
  constructor
  · rintro ⟨_, ⟨mark, hmark, rfl⟩, rest, hrest, rfl⟩
    exact ⟨mark, rest, hmark, (mem_sign_mul unsigned_digitPart).mp hrest, rfl⟩
  · rintro ⟨mark, rest, hmark, hrest, rfl⟩
    exact ⟨[mark], ⟨mark, hmark, rfl⟩, rest, (mem_sign_mul unsigned_digitPart).mpr hrest, rfl⟩

variable {rest : List UInt8}

theorem endsInExponent_iff :
  endsInExponent rest ↔ rest ∈ opt pythonExponent
  := by
  rw [mem_opt, mem_pythonExponent]
  cases rest with
  | nil => simp [endsInExponent]
  | cons mark rest => simp [endsInExponent, scanDigits_eq_iff]

theorem isExponentMark_iff :
  isExponentMark byte ↔ byte = 0x65 ∨ byte = 0x45
  := by
  simp [isExponentMark]

/-- An exponent ends digits, and it has no point. -/
theorem head_of_mem_exponent (h : rest ∈ opt pythonExponent) :
  Stops rest ∧ rest.head? ≠ some 0x2e
  := by
  rcases mem_opt.mp h with h | rfl
  · obtain ⟨mark, rest, hmark, -, rfl⟩ := mem_pythonExponent.mp h
    rcases isExponentMark_iff.mp hmark with rfl | rfl
    · exact ⟨stops_cons rest rfl (by decide), by simp⟩
    · exact ⟨stops_cons rest rfl (by decide), by simp⟩
  · exact ⟨stops_nil, by simp⟩

/-! ### Numbers -/

theorem mem_pythonNumber :
  word ∈ pythonNumber ↔
    (∃ front run, (front ∈ digitPart ∨ front = []) ∧ run ∈ digitPart ∧
      word = front ++ 0x2e :: run) ∨
    ∃ run ∈ digitPart, word = run ++ [0x2e] ∨ word = run
  := by
  rw [pythonNumber, mem_add]
  constructor
  · rintro (⟨_, ⟨front, hfront, _, hpoint, rfl⟩, run, hrun, rfl⟩ | ⟨run, hrun, _, hpoint, rfl⟩)
    · left
      rw [mem_lit.mp hpoint]
      exact ⟨front, run, mem_opt.mp hfront, hrun, by simp⟩
    · right
      use run, hrun
      rcases mem_opt.mp hpoint with hpoint | rfl
      · left
        rw [mem_lit.mp hpoint]
      · right
        apply append_nil
  · rintro (⟨front, run, hfront, hrun, rfl⟩ | ⟨run, hrun, rfl | rfl⟩)
    · left
      exact ⟨front ++ [0x2e], ⟨front, mem_opt.mpr hfront, [0x2e], mem_lit.mpr rfl, rfl⟩, run, hrun,
        by simp⟩
    · right
      exact ⟨run, hrun, [0x2e], mem_opt.mpr (Or.inl (mem_lit.mpr rfl)), rfl⟩
    · right
      exact ⟨word, hrun, [], mem_opt.mpr (Or.inr rfl), append_nil _⟩

theorem mem_misplacedNumber :
  word ∈ misplacedNumber ↔ ∃ front ∈ digitPart, ∃ run ∈ digitPart,
    word = front ++ 0x5f :: 0x2e :: run ∨ word = front ++ 0x2e :: (run ++ [0x5f])
  := by
  rw [misplacedNumber, mem_add]
  constructor
  · rintro (⟨_, ⟨_, ⟨front, hfront, _, hline, rfl⟩, _, hpoint, rfl⟩, run, hrun, rfl⟩ |
      ⟨_, ⟨_, ⟨front, hfront, _, hpoint, rfl⟩, run, hrun, rfl⟩, _, hline, rfl⟩)
    · rw [mem_lit.mp hline, mem_lit.mp hpoint]
      exact ⟨front, hfront, run, hrun, Or.inl (by simp)⟩
    · rw [mem_lit.mp hline, mem_lit.mp hpoint]
      exact ⟨front, hfront, run, hrun, Or.inr (by simp)⟩
  · rintro ⟨front, hfront, run, hrun, rfl | rfl⟩
    · left
      have hfirst : front ++ [0x5f] ∈ digitPart * lit 0x5f :=
        ⟨front, hfront, [0x5f], mem_lit.mpr rfl, rfl⟩
      exact ⟨front ++ [0x5f] ++ [0x2e], ⟨front ++ [0x5f], hfirst, [0x2e], mem_lit.mpr rfl, rfl⟩,
        run, hrun, by simp⟩
    · right
      have hfirst : front ++ [0x2e] ∈ digitPart * lit 0x2e :=
        ⟨front, hfront, [0x2e], mem_lit.mpr rfl, rfl⟩
      exact ⟨front ++ [0x2e] ++ run, ⟨front ++ [0x2e], hfirst, run, hrun, rfl⟩, [0x5f],
        mem_lit.mpr rfl, by simp⟩

theorem scanFraction_of_head (h : rest.head? ≠ some 0x2e) :
  scanFraction rest = (false, rest)
  := by
  cases rest with
  | nil => rfl
  | cons byte rest =>
    have hbyte : byte ≠ 0x2e := by simpa using h
    simp [scanFraction, hbyte]

theorem isPythonDecimal_eq {text rest rest' : List UInt8} {leadingDigits fractionDigits : Bool}
    (h : scanDigits text = (leadingDigits, rest))
    (h' : scanFraction rest = (fractionDigits, rest')) :
  isPythonDecimal text = ((leadingDigits || fractionDigits) && endsInExponent rest')
  := by
  rw [isPythonDecimal, h]
  simp only [h']

theorem stops_point (rest : List UInt8) :
  Stops (0x2e :: rest)
  := stops_cons rest rfl (by decide)

/-- The digits that are read are those of a number, or have a misplaced underscore. -/
theorem exists_number_of_isPythonDecimal (h : isPythonDecimal text) :
  ∃ number rest, (number ∈ pythonNumber ∨ number ∈ misplacedNumber) ∧ rest ∈ opt pythonExponent ∧
    text = number ++ rest
  := by
  obtain ⟨leading, behind, hscan⟩ : ∃ leading behind, scanDigits text = (leading, behind) :=
    ⟨_, _, rfl⟩
  obtain ⟨fraction, rest, hfraction⟩ : ∃ fraction rest, scanFraction behind = (fraction, rest) :=
    ⟨_, _, rfl⟩
  rw [isPythonDecimal_eq hscan hfraction, Bool.and_eq_true, Bool.or_eq_true,
    endsInExponent_iff] at h
  obtain ⟨hdigits, hrest⟩ := h
  by_cases hpoint : behind.head? = some 0x2e
  · obtain ⟨behind, rfl⟩ := head?_eq_some_iff.mp hpoint
    cases leading with
    | true =>
      obtain ⟨run, hrun, rfl⟩ := run_of_scanDigits hscan
      cases fraction with
      | true =>
        obtain ⟨run', hrun', rfl⟩ := run_of_scanDigits hfraction
        exact ⟨run ++ 0x2e :: run', rest,
          Or.inl (mem_pythonNumber.mpr (Or.inl ⟨run, run', Or.inl hrun, hrun', rfl⟩)), hrest,
          by simp⟩
      | false =>
        obtain rfl | ⟨run', hrun', rfl⟩ := cut_of_scanDigits hfraction
        · exact ⟨run ++ [0x2e], behind,
            Or.inl (mem_pythonNumber.mpr (Or.inr ⟨run, hrun, Or.inl rfl⟩)), hrest, by simp⟩
        · exact ⟨run ++ 0x2e :: (run' ++ [0x5f]), rest,
            Or.inr (mem_misplacedNumber.mpr ⟨run, hrun, run', hrun', Or.inr rfl⟩), hrest, by simp⟩
    | false =>
      obtain rfl : fraction = true := hdigits.resolve_left Bool.false_ne_true
      obtain ⟨run', hrun', rfl⟩ := run_of_scanDigits hfraction
      obtain rfl | ⟨run, hrun, rfl⟩ := cut_of_scanDigits hscan
      · exact ⟨0x2e :: run', rest,
          Or.inl (mem_pythonNumber.mpr (Or.inl ⟨[], run', Or.inr rfl, hrun', rfl⟩)), hrest, rfl⟩
      · exact ⟨run ++ 0x5f :: 0x2e :: run', rest,
          Or.inr (mem_misplacedNumber.mpr ⟨run, hrun, run', hrun', Or.inl rfl⟩), hrest, by simp⟩
  · rw [scanFraction_of_head hpoint] at hfraction
    obtain ⟨rfl, rfl⟩ := Prod.mk.inj hfraction
    obtain rfl : leading = true := hdigits.resolve_right Bool.false_ne_true
    obtain ⟨run, hrun, rfl⟩ := run_of_scanDigits hscan
    exact ⟨run, behind, Or.inl (mem_pythonNumber.mpr (Or.inr ⟨run, hrun, Or.inr rfl⟩)), hrest, rfl⟩

theorem isPythonDecimal_append {number rest : List UInt8} (hrest : rest ∈ opt pythonExponent)
    (h : number ∈ pythonNumber ∨ number ∈ misplacedNumber) :
  isPythonDecimal (number ++ rest)
  := by
  obtain ⟨hstops, hhead⟩ := head_of_mem_exponent hrest
  have hend := endsInExponent_iff.mpr hrest
  rcases h with h | h
  · rcases mem_pythonNumber.mp h with ⟨front, run, hfront | rfl, hrun, rfl⟩ |
      ⟨run, hrun, rfl | rfl⟩
    · have hscan := scanDigits_append hfront (stops_point (run ++ rest))
      rw [append_assoc, cons_append,
        isPythonDecimal_eq hscan (scanDigits_append hrun hstops), hend]
      rfl
    · have hscan := scanDigits_none (stops_point (run ++ rest)).noDigit
      rw [nil_append, cons_append,
        isPythonDecimal_eq hscan (scanDigits_append hrun hstops), hend]
      rfl
    · have hscan := scanDigits_append hrun (stops_point rest)
      rw [append_assoc, singleton_append,
        isPythonDecimal_eq hscan (scanDigits_none hstops.noDigit), hend]
      rfl
    · rw [isPythonDecimal_eq (scanDigits_append hrun hstops) (scanFraction_of_head hhead), hend]
      rfl
  · obtain ⟨front, hfront, run, hrun, rfl | rfl⟩ := mem_misplacedNumber.mp h
    · have hscan := scanDigits_cut hfront (stops_point (run ++ rest)).noDigit
      rw [append_assoc, cons_append, cons_append,
        isPythonDecimal_eq hscan (scanDigits_append hrun hstops), hend]
      rfl
    · have hscan := scanDigits_append hfront (stops_point (run ++ 0x5f :: rest))
      have hfraction := scanDigits_cut hrun hstops.noDigit
      rw [append_assoc, cons_append, append_assoc, singleton_append,
        isPythonDecimal_eq hscan hfraction, hend]
      rfl

theorem isPythonDecimal_iff :
  isPythonDecimal text ↔
    text ∈ pythonNumber * opt pythonExponent ∨ text ∈ misplacedNumber * opt pythonExponent
  := by
  constructor
  · intro h
    obtain ⟨number, rest, hnumber | hnumber, hrest, rfl⟩ := exists_number_of_isPythonDecimal h
    · exact Or.inl ⟨number, hnumber, rest, hrest, rfl⟩
    · exact Or.inr ⟨number, hnumber, rest, hrest, rfl⟩
  · rintro (⟨number, hnumber, rest, hrest, rfl⟩ | ⟨number, hnumber, rest, hrest, rfl⟩)
    · exact isPythonDecimal_append hrest (Or.inl hnumber)
    · exact isPythonDecimal_append hrest (Or.inr hnumber)

/-! ### Words -/

theorem matchesKeyword_eq_some {text word rest : List UInt8} :
  matchesKeyword text word = some rest ↔ ∃ front ∈ keyword word, text = front ++ rest
  := by
  rw [matchesKeyword]
  constructor
  · intro h
    split at h
    · cases h
    split at h
    case isTrue hmap =>
      cases h
      exact ⟨_, hmap, (take_append_drop _ _).symm⟩
    case isFalse => cases h
  · rintro ⟨front, hfront, rfl⟩
    have hfront : front.map tolower = word := hfront
    subst hfront
    simp

theorem head_of_mem_keyword {front word : List UInt8} {letter : UInt8}
    (h : front ∈ keyword (letter :: word)) (rest : List UInt8) :
  (front ++ rest).head?.map tolower = some letter
  := by
  cases front with
  | nil => cases h
  | cons byte front =>
    obtain ⟨hbyte, -⟩ := cons.inj h
    simp [hbyte]

theorem matchesKeyword_of_head {text word : List UInt8} {letter : UInt8}
    (h : text.head?.map tolower ≠ some letter) :
  matchesKeyword text (letter :: word) = none
  := by
  rw [eq_none_iff_forall_ne_some]
  intro rest hrest
  obtain ⟨front, hfront, rfl⟩ := matchesKeyword_eq_some.mp hrest
  exact h (head_of_mem_keyword hfront rest)

theorem matchesKeyword_self {text word : List UInt8} (h : text ∈ keyword word) :
  matchesKeyword text word = some []
  := matchesKeyword_eq_some.mpr ⟨text, h, (append_nil _).symm⟩

theorem tolower_of_isDigit (h : isDigit byte) :
  tolower byte = byte
  := by
  apply if_neg
  rintro ⟨hlow, -⟩
  have hhigh : byte ≤ 0x39 := by simpa using (Bool.and_eq_true_iff.mp h).2
  exact absurd (UInt8.le_trans hlow hhigh) (by decide)

/-- What is read as digits begins with a digit or a point. -/
theorem head_of_isPythonDecimal (h : isPythonDecimal text) :
  ∀ byte ∈ text.head?, isDigit byte ∨ byte = 0x2e
  := by
  intro byte hbyte
  by_contra hno
  rw [not_or] at hno
  have hnoDigit : NoDigit text := by
    intro byte' hbyte'
    rw [mem_unique hbyte' hbyte]
    simpa using hno.1
  have hhead : text.head? ≠ some 0x2e := by
    rw [mem_def.mp hbyte]
    rintro ⟨⟩
    exact hno.2 rfl
  rw [isPythonDecimal_eq (scanDigits_none hnoDigit) (scanFraction_of_head hhead)] at h
  cases h

theorem head_ne_of_isPythonDecimal (h : isPythonDecimal text) {letter : UInt8}
    (hdigit : isDigit letter = false) (hpoint : letter ≠ 0x2e) :
  text.head?.map tolower ≠ some letter
  := by
  intro hletter
  obtain ⟨byte, hbyte, rfl⟩ := map_eq_some_iff.mp hletter
  rcases head_of_isPythonDecimal h byte hbyte with hbyte | rfl
  · rw [tolower_of_isDigit hbyte, hbyte] at hdigit
    cases hdigit
  · exact hpoint rfl

/-! ### Floating point numbers -/

/-- A floating point number without its sign. -/
def floatCore : Language UInt8 :=
  pythonNumber * opt pythonExponent + (keyword kInfinity + keyword kInf) + keyword kNan

theorem isSome_isPythonFloat_iff :
  (isPythonFloat raw).isSome ↔ dropSign (pythonTrimmed raw) ∈ floatCore ∨
    dropSign (pythonTrimmed raw) ∈ misplacedNumber * opt pythonExponent
  := by
  rw [isPythonFloat]
  generalize dropSign (pythonTrimmed raw) = text
  generalize (decide ((pythonTrimmed raw).head? = some 0x2d)) = negative
  constructor
  · intro h
    split at h
    case h_1 rest hword =>
      split at h
      case isTrue hrest =>
        subst hrest
        rcases or_eq_some_iff.mp hword with hword | ⟨-, hword⟩
        · obtain ⟨front, hfront, rfl⟩ := matchesKeyword_eq_some.mp hword
          rw [append_nil]
          exact Or.inl (Or.inl (Or.inr (Or.inl hfront)))
        · obtain ⟨front, hfront, rfl⟩ := matchesKeyword_eq_some.mp hword
          rw [append_nil]
          exact Or.inl (Or.inl (Or.inr (Or.inr hfront)))
      case isFalse => cases h
    case h_2 =>
      split at h
      case h_1 rest hword =>
        split at h
        case isTrue hrest =>
          subst hrest
          obtain ⟨front, hfront, rfl⟩ := matchesKeyword_eq_some.mp hword
          rw [append_nil]
          exact Or.inl (Or.inr hfront)
        case isFalse => cases h
      case h_2 =>
        split at h
        case isTrue hdecimal =>
          rcases isPythonDecimal_iff.mp hdecimal with hnumber | hnumber
          · exact Or.inl (Or.inl (Or.inl hnumber))
          · exact Or.inr hnumber
        case isFalse => cases h
  · intro h
    have hcases : isPythonDecimal text ∨ text ∈ keyword kInfinity ∨ text ∈ keyword kInf ∨
        text ∈ keyword kNan := by
      rcases h with ((h | h | h) | h) | h
      · exact Or.inl (isPythonDecimal_iff.mpr (Or.inl h))
      · exact Or.inr (Or.inl h)
      · exact Or.inr (Or.inr (Or.inl h))
      · exact Or.inr (Or.inr (Or.inr h))
      · exact Or.inl (isPythonDecimal_iff.mpr (Or.inr h))
    rcases hcases with hdecimal | hword | hword | hword
    · have hi : text.head?.map tolower ≠ some 0x69 :=
        head_ne_of_isPythonDecimal hdecimal rfl (by decide)
      have hn : text.head?.map tolower ≠ some 0x6e :=
        head_ne_of_isPythonDecimal hdecimal rfl (by decide)
      simp [kInfinity, kInf, kNan, matchesKeyword_of_head hi, matchesKeyword_of_head hn, hdecimal]
    · simp [matchesKeyword_self hword]
    · have hlong : matchesKeyword text kInfinity = none := by
        have hlength := congrArg length (hword : text.map tolower = kInf)
        rw [length_map] at hlength
        rw [matchesKeyword, if_pos (by rw [hlength]; decide)]
      simp [hlong, matchesKeyword_self hword]
    · have hi : text.head?.map tolower ≠ some 0x69 := by
        have hhead := head_of_mem_keyword (hword : text ∈ keyword (0x6e :: [0x61, 0x6e])) []
        rw [append_nil] at hhead
        rw [hhead]
        decide
      simp [kInfinity, kInf, matchesKeyword_of_head hi, matchesKeyword_self hword]

/-! ### What the cores avoid -/

theorem not_isDigit_of_isTrimmed (h : isTrimmed byte) :
  isDigit byte = false ∧ isSign byte = false ∧ isExponentMark byte = false ∧ byte ≠ 0x2e ∧
    byte ≠ 0x5f ∧ tolower byte = byte
  := by
  have hbyte : byte ∈ [0x20, 0x09, 0x0a, 0x0d, 0x0c, 0x0b] := by simpa [isTrimmed] using h
  simp only [mem_cons, not_mem_nil, or_false] at hbyte
  rcases hbyte with rfl | rfl | rfl | rfl | rfl | rfl <;> decide

theorem avoids_digitPart (hdigit : isDigit byte = false) (hline : byte ≠ 0x5f) :
  Avoids digitPart byte
  := ((avoids_symbol hdigit).mul (((avoids_lit hline).opt.mul (avoids_symbol hdigit)).kstar))

theorem avoids_keyword (h : tolower byte ∉ word) :
  Avoids (keyword word) byte
  := by
  rintro text rfl hmem
  exact h (mem_map_of_mem hmem)

theorem unpadded_sign_digitPart :
  Unpadded (sign * digitPart)
  := by
  intro byte hbyte
  obtain ⟨hdigit, hsign, -, -, hline, -⟩ := not_isDigit_of_isTrimmed hbyte
  exact (avoids_symbol hsign).opt.mul (avoids_digitPart hdigit hline)

theorem avoids_exponent (h : isTrimmed byte) :
  Avoids (opt pythonExponent) byte
  := by
  obtain ⟨hdigit, hsign, hmark, -, hline, -⟩ := not_isDigit_of_isTrimmed h
  exact (((avoids_symbol hmark).mul (avoids_symbol hsign).opt).mul
    (avoids_digitPart hdigit hline)).opt

theorem unpadded_floatCore :
  Unpadded (sign * floatCore)
  := by
  intro byte hbyte
  obtain ⟨hdigit, hsign, -, hpoint, hline, hlower⟩ := not_isDigit_of_isTrimmed hbyte
  have hdigits := avoids_digitPart hdigit hline
  have hnumber : Avoids pythonNumber byte :=
    ((hdigits.opt.mul (avoids_lit hpoint)).mul hdigits).add (hdigits.mul (avoids_lit hpoint).opt)
  have hword : ∀ word : List UInt8, word.all (isTrimmed · = false) →
      Avoids (keyword word) byte := by
    intro word hword
    apply avoids_keyword
    rw [hlower]
    intro hmem
    have hnone := all_eq_true.mp hword byte hmem
    rw [decide_eq_true_eq, hbyte] at hnone
    cases hnone
  exact (avoids_symbol hsign).opt.mul (((hnumber.mul (avoids_exponent hbyte)).add
    ((hword kInfinity rfl).add (hword kInf rfl))).add (hword kNan rfl))

theorem unpadded_misplaced :
  Unpadded (sign * (misplacedNumber * opt pythonExponent))
  := by
  intro byte hbyte
  obtain ⟨hdigit, hsign, -, hpoint, hline, -⟩ := not_isDigit_of_isTrimmed hbyte
  have hdigits := avoids_digitPart hdigit hline
  have hnumber : Avoids misplacedNumber byte :=
    ((((hdigits.mul (avoids_lit hline)).mul (avoids_lit hpoint)).mul hdigits)).add
      (((hdigits.mul (avoids_lit hpoint)).mul hdigits).mul (avoids_lit hline))
  exact (avoids_symbol hsign).opt.mul (hnumber.mul (avoids_exponent hbyte))

theorem unsigned_of_head
    (h : ∀ word ∈ language, ∀ byte ∈ word.head?, isDigit byte ∨ byte = 0x2e ∨
      tolower byte ∈ [0x69, 0x6e]) :
  Unsigned language
  := by
  intro word hword byte hbyte
  rw [Bool.eq_false_iff]
  intro hsign
  have hsign : byte = 0x2b ∨ byte = 0x2d := by simpa [isSign] using hsign
  have hhead := h word hword byte hbyte
  rcases hsign with rfl | rfl <;> revert hhead <;> decide

theorem unsigned_floatCore :
  Unsigned floatCore
  := by
  apply unsigned_of_head
  intro word hword byte hbyte
  have hkeyword : ∀ (letter : UInt8) (letters : List UInt8), letter ∈ [0x69, 0x6e] →
      word ∈ keyword (letter :: letters) → tolower byte ∈ [0x69, 0x6e] := by
    intro letter letters hletter hmem
    have hhead := head_of_mem_keyword hmem []
    rw [append_nil, mem_def.mp hbyte] at hhead
    rwa [some.inj hhead]
  rcases hword with (hword | hword | hword) | hword
  · rcases head_of_isPythonDecimal (isPythonDecimal_iff.mpr (Or.inl hword)) byte hbyte with h | h
    · exact Or.inl h
    · exact Or.inr (Or.inl h)
  · exact Or.inr (Or.inr (hkeyword _ _ (by decide) hword))
  · exact Or.inr (Or.inr (hkeyword _ _ (by decide) hword))
  · exact Or.inr (Or.inr (hkeyword _ _ (by decide) hword))

theorem unsigned_misplaced :
  Unsigned (misplacedNumber * opt pythonExponent)
  := by
  apply unsigned_of_head
  intro word hword byte hbyte
  rcases head_of_isPythonDecimal (isPythonDecimal_iff.mpr (Or.inr hword)) byte hbyte with h | h
  · exact Or.inl h
  · exact Or.inr (Or.inl h)

/-! ### Underscores between digits -/

/-- A digit follows every underscore. -/
def Joined (word : List UInt8) : Prop :=
  ∀ front back, word = front ++ 0x5f :: back → ∃ digit ∈ back.head?, isDigit digit

theorem Joined.append {word word' : List UInt8} (h : Joined word) (h' : Joined word') :
  Joined (word ++ word')
  := by
  intro front back heq
  rcases append_eq_append_iff.mp heq with ⟨middle, rfl, hback⟩ | ⟨middle, rfl, hback⟩
  · exact h' middle back hback
  · cases middle with
    | nil => exact h' [] back hback.symm
    | cons byte middle =>
      obtain ⟨rfl, rfl⟩ := cons.inj hback
      obtain ⟨digit, hhead, hdigit⟩ := h front middle rfl
      cases middle with
      | nil => cases hhead
      | cons byte middle => exact ⟨digit, hhead, hdigit⟩

theorem joined_of_not_mem (h : 0x5f ∉ word) :
  Joined word
  := by
  rintro front back rfl
  exact absurd (mem_append_right front mem_cons_self) h

theorem joined_flatten {words : List (List UInt8)} (h : ∀ word ∈ words, Joined word) :
  Joined words.flatten
  := by
  induction words with
  | nil => exact joined_of_not_mem not_mem_nil
  | cons word words ih =>
    obtain ⟨hword, hwords⟩ := forall_mem_cons.mp h
    exact hword.append (ih hwords)

theorem joined_digit {digit : UInt8} (h : isDigit digit) :
  Joined [digit]
  := by
  apply joined_of_not_mem
  intro hmem
  rw [← mem_singleton.mp hmem] at h
  cases h

theorem joined_digitPart {run : List UInt8} (h : run ∈ digitPart) :
  Joined run
  := by
  obtain ⟨digit, groups, hdigit, hgroups, rfl⟩ := mem_digitPart.mp h
  apply (joined_digit hdigit).append
  apply joined_flatten
  intro group hgroup
  obtain ⟨digit', hdigit', rfl | rfl⟩ := mem_group.mp (hgroups group hgroup)
  · exact joined_digit hdigit'
  · intro front back heq
    cases front with
    | nil =>
      obtain ⟨-, rfl⟩ := cons.inj heq
      exact ⟨digit', rfl, hdigit'⟩
    | cons byte front =>
      obtain ⟨-, htail⟩ := cons.inj heq
      exact joined_digit hdigit' front back htail

theorem joined_exponent (h : rest ∈ opt pythonExponent) :
  Joined rest
  := by
  rcases mem_opt.mp h with ⟨_, ⟨_, ⟨mark, hmark, rfl⟩, front, hfront, rfl⟩, run, hrun, rfl⟩ | rfl
  · have hmark : 0x5f ∉ [mark] := avoids_symbol rfl _ ⟨mark, hmark, rfl⟩
    have hfront : 0x5f ∉ front := (avoids_symbol rfl).opt _ hfront
    exact ((joined_of_not_mem hmark).append (joined_of_not_mem hfront)).append
      (joined_digitPart hrun)
  · exact joined_of_not_mem not_mem_nil

theorem joined_floatCore (h : word ∈ floatCore) :
  Joined word
  := by
  have hpoint : Joined [0x2e] := joined_of_not_mem (by decide)
  rcases h with (⟨number, hnumber, rest, hrest, rfl⟩ | h | h) | h
  · apply Joined.append _ (joined_exponent hrest)
    rcases mem_pythonNumber.mp hnumber with ⟨front, run, hfront | rfl, hrun, rfl⟩ |
      ⟨run, hrun, rfl | rfl⟩
    · exact (joined_digitPart hfront).append (hpoint.append (joined_digitPart hrun))
    · exact hpoint.append (joined_digitPart hrun)
    · exact (joined_digitPart hrun).append hpoint
    · exact joined_digitPart hrun
  · exact joined_of_not_mem (avoids_keyword (by decide) word h)
  · exact joined_of_not_mem (avoids_keyword (by decide) word h)
  · exact joined_of_not_mem (avoids_keyword (by decide) word h)

theorem not_joined_misplaced (h : word ∈ misplacedNumber * opt pythonExponent) :
  ¬ Joined word
  := by
  obtain ⟨number, hnumber, rest, hrest, rfl⟩ := h
  intro hjoined
  obtain ⟨front, hfront, run, hrun, rfl | rfl⟩ := mem_misplacedNumber.mp hnumber
  · obtain ⟨_, ⟨⟩, hdigit⟩ := hjoined front (0x2e :: run ++ rest) (by simp)
    cases hdigit
  · obtain ⟨digit, hhead, hdigit⟩ := hjoined (front ++ 0x2e :: run) rest (by simp)
    have hno := ((head_of_mem_exponent hrest).1 digit hhead).1
    rw [hno] at hdigit
    cases hdigit

/-! ### Groups of three digits -/

theorem mem_commaGroup :
  word ∈ commaGroup ↔
    ∃ a b c, isDigit a ∧ isDigit b ∧ isDigit c ∧ word = [0x2c, a, b, c]
  := by
  constructor
  · rintro ⟨_, ⟨_, ⟨_, hcomma, _, ⟨a, ha, rfl⟩, rfl⟩, _, ⟨b, hb, rfl⟩, rfl⟩, _, ⟨c, hc, rfl⟩, rfl⟩
    rw [mem_lit.mp hcomma]
    exact ⟨a, b, c, ha, hb, hc, rfl⟩
  · rintro ⟨a, b, c, ha, hb, hc, rfl⟩
    exact ⟨[0x2c, a, b], ⟨[0x2c, a], ⟨[0x2c], mem_lit.mpr rfl, [a], ⟨a, ha, rfl⟩, rfl⟩, [b],
      ⟨b, hb, rfl⟩, rfl⟩, [c], ⟨c, hc, rfl⟩, rfl⟩

theorem skipGroups_flatten (h : ∀ word ∈ groups, word ∈ commaGroup) (rest : List UInt8) :
  skipGroups (groups.flatten ++ rest) = skipGroups rest
  := by
  induction groups with
  | nil => rfl
  | cons word groups ih =>
    obtain ⟨hword, hgroups⟩ := forall_mem_cons.mp h
    obtain ⟨a, b, c, ha, hb, hc, rfl⟩ := mem_commaGroup.mp hword
    simpa [skipGroups, ha, hb, hc] using ih hgroups

theorem exists_skipped (text : List UInt8) :
  ∃ skipped ∈ KStar.kstar commaGroup, text = skipped ++ skipGroups text
  := by
  fun_induction skipGroups text with
  | case1 comma a b c rest h ih =>
    obtain ⟨rfl, ha, hb, hc⟩ := h
    obtain ⟨_, hskipped, heq⟩ := ih
    obtain ⟨groups, rfl, hgroups⟩ := mem_kstar.mp hskipped
    have hgroup := mem_commaGroup.mpr ⟨a, b, c, ha, hb, hc, rfl⟩
    refine ⟨([0x2c, a, b, c] :: groups).flatten, mem_kstar.mpr
      ⟨_, rfl, forall_mem_cons.mpr ⟨hgroup, hgroups⟩⟩, ?_⟩
    rw [flatten_cons, append_assoc, ← heq]
    rfl
  | case2 comma a b c rest h => exact ⟨[], nil_mem_kstar _, rfl⟩
  | case3 rest => exact ⟨[], nil_mem_kstar _, rfl⟩

theorem skipGroups_of_head (h : rest.head? ≠ some 0x2c) :
  skipGroups rest = rest
  := by
  fun_cases skipGroups rest with
  | case1 comma a b c rest hcomma => simp [hcomma.1] at h
  | case2 => rfl
  | case3 => rfl

theorem endsInFraction_cons_iff {integerPart : Bool} :
  endsInFraction integerPart (byte :: rest) ↔
    byte = 0x2e ∧ (integerPart ∨ rest ≠ []) ∧ ∀ digit ∈ rest, isDigit digit
  := by
  simp only [endsInFraction, Bool.and_eq_true, Bool.or_eq_true, decide_eq_true_eq,
    dropWhile_eq_nil_iff, and_assoc]
  constructor
  · rintro ⟨hpoint, hsome, hall⟩
    rw [takeWhile_eq_self_iff.mpr hall] at hsome
    exact ⟨hpoint, hsome, hall⟩
  · rintro ⟨hpoint, hsome, hall⟩
    rw [takeWhile_eq_self_iff.mpr hall]
    exact ⟨hpoint, hsome, hall⟩

/-- What is behind an integer part. -/
theorem endsInFraction_true_iff :
  endsInFraction true rest ↔ rest ∈ opt (lit 0x2e * KStar.kstar (symbol isDigit))
  := by
  rw [mem_opt, mem_lit_mul]
  cases rest with
  | nil => simp [endsInFraction]
  | cons byte rest =>
    rw [endsInFraction_cons_iff]
    constructor
    · rintro ⟨rfl, -, hall⟩
      exact Or.inl ⟨rest, mem_kstar_symbol.mpr hall, rfl⟩
    · rintro (⟨_, hall, ⟨⟩⟩ | hnil)
      case inr => cases hnil
      exact ⟨rfl, Or.inl rfl, mem_kstar_symbol.mp hall⟩

theorem endsInFraction_false_iff :
  endsInFraction false rest ↔ rest ∈ opt (lit 0x2e * plus (symbol isDigit))
  := by
  rw [mem_opt, mem_lit_mul]
  cases rest with
  | nil => simp [endsInFraction]
  | cons byte rest =>
    rw [endsInFraction_cons_iff]
    constructor
    · rintro ⟨rfl, hsome, hall⟩
      have hne : rest ≠ [] := hsome.resolve_left Bool.false_ne_true
      exact Or.inl ⟨rest, mem_plus_symbol.mpr ⟨hne, hall⟩, rfl⟩
    · rintro (⟨_, hall, ⟨⟩⟩ | hnil)
      case inr => cases hnil
      obtain ⟨hne, hall⟩ := mem_plus_symbol.mp hall
      exact ⟨rfl, Or.inr hne, hall⟩

theorem mem_shortDigits :
  word ∈ shortDigits ↔ word ≠ [] ∧ word.length ≤ 3 ∧ ∀ digit ∈ word, isDigit digit
  := by
  constructor
  · rintro ⟨_, ⟨_, ⟨a, ha, rfl⟩, second, hsecond, rfl⟩, third, hthird, rfl⟩
    rcases mem_opt.mp hsecond with ⟨b, hb, rfl⟩ | rfl <;>
      rcases mem_opt.mp hthird with ⟨c, hc, rfl⟩ | rfl <;> simp [*]
  · rintro ⟨hne, hlength, hall⟩
    have hsome : ∀ digit ∈ word, [digit] ∈ opt (symbol isDigit) := fun digit hdigit =>
      mem_opt.mpr (Or.inl ⟨digit, hall digit hdigit, rfl⟩)
    have hnone : [] ∈ opt (symbol isDigit) := mem_opt.mpr (Or.inr rfl)
    match word, hne, hlength with
    | [a], _, _ =>
      exact ⟨[a], ⟨[a], ⟨a, hall a (by simp), rfl⟩, [], hnone, rfl⟩, [], hnone, rfl⟩
    | [a, b], _, _ =>
      exact ⟨[a, b], ⟨[a], ⟨a, hall a (by simp), rfl⟩, [b], hsome b (by simp), rfl⟩, [], hnone, rfl⟩
    | [a, b, c], _, _ =>
      exact ⟨[a, b], ⟨[a], ⟨a, hall a (by simp), rfl⟩, [b], hsome b (by simp), rfl⟩, [c],
        hsome c (by simp), rfl⟩

/-- The groups and the fraction do not begin with a digit, and the fraction not with a comma. -/
theorem head_of_groups (hgroups : ∀ word ∈ groups, word ∈ commaGroup) {fraction : List UInt8}
    (hfraction : fraction ∈ opt (lit 0x2e * KStar.kstar (symbol isDigit))) :
  NoDigit (groups.flatten ++ fraction) ∧ fraction.head? ≠ some 0x2c
  := by
  have hhead : NoDigit fraction ∧ fraction.head? ≠ some 0x2c := by
    rcases mem_opt.mp hfraction with hfraction | rfl
    · obtain ⟨digits, -, rfl⟩ := mem_lit_mul.mp hfraction
      exact ⟨(stops_point digits).noDigit, by simp⟩
    · exact ⟨stops_nil.noDigit, by simp⟩
  refine ⟨?_, hhead.2⟩
  cases groups with
  | nil => exact hhead.1
  | cons word groups =>
    obtain ⟨a, b, c, -, -, -, rfl⟩ := mem_commaGroup.mp (hgroups _ mem_cons_self)
    rintro _ ⟨⟩
    rfl

theorem take_takeWhile_append {digits rest : List UInt8} (hdigits : digits ∈ shortDigits)
    (hrest : NoDigit rest) :
  ((digits ++ rest).take 3).takeWhile isDigit = digits
  := by
  obtain ⟨-, hlength, hall⟩ := mem_shortDigits.mp hdigits
  have hnone : (rest.take (3 - digits.length)).takeWhile isDigit = [] := by
    cases rest with
    | nil => simp
    | cons byte rest =>
      have hbyte := hrest byte rfl
      cases 3 - digits.length with
      | zero => rfl
      | succ count => simp [hbyte]
  rw [take_append, take_of_length_le hlength, takeWhile_append_of_pos hall, hnone,
    append_nil]

/-- A number in groups of three without its sign. -/
def thousandsCore : Language UInt8 :=
  shortDigits * KStar.kstar commaGroup * opt (lit 0x2e * KStar.kstar (symbol isDigit))

theorem unsigned_thousandsCore :
  Unsigned thousandsCore
  := by
  apply unsigned_of_head
  rintro _ ⟨_, ⟨digits, hdigits, groups, -, rfl⟩, fraction, -, rfl⟩ byte hbyte
  obtain ⟨hne, -, hall⟩ := mem_shortDigits.mp hdigits
  obtain ⟨digit, after, rfl⟩ := exists_cons_of_ne_nil hne
  cases hbyte
  exact Or.inl (hall byte mem_cons_self)

/-- Digits in groups of three are accepted as the expression spells them. -/
theorem hasThousandsSeparators_iff :
  hasThousandsSeparators text ↔ text ∈ thousands
  := by
  have hcore : thousandsInteger * opt (lit 0x2e * KStar.kstar (symbol isDigit)) =
      sign * thousandsCore := by
    simp only [thousandsInteger, thousandsCore, mul_assoc]
  rw [thousands, hcore, mem_add, mem_sign_mul unsigned_thousandsCore,
    hasThousandsSeparators]
  constructor
  · intro h
    split at h
    case isTrue => exact Or.inr (endsInFraction_false_iff.mp h)
    case isFalse hne =>
      left
      generalize dropSign text = text at hne h
      set digits := (text.take 3).takeWhile isDigit with hdigits
      obtain ⟨groups, hgroups, heq⟩ := exists_skipped (text.drop digits.length)
      have hsplit : digits ++ text.drop digits.length = text := by
        have hpre : digits <+: text := ( takeWhile_prefix _).trans ( take_prefix 3 text)
        obtain ⟨rest, hrest⟩ := hpre
        rw [← hrest, drop_left]
      have hshort : digits ∈ shortDigits := by
        rw [mem_shortDigits]
        refine ⟨hne, ?_, fun digit => mem_takeWhile_imp⟩
        exact (( takeWhile_prefix _).length_le).trans (length_take_le 3 text)
      refine ⟨digits ++ groups, ⟨digits, hshort, groups, hgroups, rfl⟩,
        skipGroups (text.drop digits.length), endsInFraction_true_iff.mp h, ?_⟩
      change digits ++ groups ++ skipGroups (text.drop digits.length) = text
      rw [append_assoc, ← heq, hsplit]
  · rintro (⟨_, ⟨digits, hdigits, _, hgroups, rfl⟩, fraction, hfraction, heq⟩ | h)
    · obtain ⟨groups, rfl, hall⟩ := mem_kstar.mp hgroups
      obtain ⟨hno, hcomma⟩ := head_of_groups hall hfraction
      have heq : digits ++ groups.flatten ++ fraction = dropSign text := heq
      rw [append_assoc] at heq
      rw [← heq, take_takeWhile_append hdigits hno, if_neg (mem_shortDigits.mp hdigits).1,
        drop_left, skipGroups_flatten hall, skipGroups_of_head hcomma]
      exact endsInFraction_true_iff.mpr hfraction
    · have hnone : ((dropSign text).take 3).takeWhile isDigit = [] := by
        rcases mem_opt.mp h with h | rfl
        · obtain ⟨digits, -, rfl⟩ := mem_lit_mul.mp h
          rfl
        · rfl
      rw [if_pos hnone]
      exact endsInFraction_false_iff.mpr h

/-! ### The grammar of cells -/

theorem isPythonInt_iff :
  isPythonInt raw ↔ raw ∈ pythonInt
  := by
  rw [pythonInt, mem_padded unpadded_sign_digitPart, mem_sign_mul unsigned_digitPart,
    ← scanDigits_eq_iff, isPythonInt, decide_eq_true_eq]

theorem mem_pythonFloat :
  raw ∈ pythonFloat ↔ dropSign (pythonTrimmed raw) ∈ floatCore
  := by
  rw [pythonFloat, ← floatCore, mem_padded unpadded_floatCore, mem_sign_mul unsigned_floatCore]

theorem mem_misplacedUnderscore :
  raw ∈ misplacedUnderscore ↔
    dropSign (pythonTrimmed raw) ∈ misplacedNumber * opt pythonExponent
  := by
  rw [misplacedUnderscore, mem_padded unpadded_misplaced, mem_sign_mul unsigned_misplaced]

/-- A text is read as the grammars say but where an underscore stands before the point or behind
the fraction. -/
theorem numericCells_iff (raw : List UInt8) :
  ((isPythonInt raw ↔ raw ∈ pythonInt) ∧
      ((isPythonFloat raw).isSome ↔ raw ∈ pythonFloat) ∧
      (hasThousandsSeparators raw ↔ raw ∈ thousands)) ↔
    raw ∉ misplacedUnderscore
  := by
  rw [iff_true_intro (isPythonInt_iff),
    iff_true_intro (hasThousandsSeparators_iff), true_and, and_true,
    isSome_isPythonFloat_iff, ← mem_pythonFloat, ← mem_misplacedUnderscore]
  constructor
  · intro h hmisplaced
    have hfloat := h.mp (Or.inr hmisplaced)
    exact not_joined_misplaced (mem_misplacedUnderscore.mp hmisplaced)
      (joined_floatCore (mem_pythonFloat.mp hfloat))
  · intro h
    exact or_iff_left h

/-- The text `1_.5` is read as a number. -/
theorem numericCells_underscore :
  ¬ ((isPythonFloat [0x31, 0x5f, 0x2e, 0x35]).isSome ↔ [0x31, 0x5f, 0x2e, 0x35] ∈ pythonFloat)
  := by
  intro h
  have hfloat := h.mp (by decide)
  obtain ⟨_, ⟨⟩, hdigit⟩ := joined_floatCore (mem_pythonFloat.mp hfloat) [0x31] [0x2e, 0x35] rfl
  cases hdigit

end GRParse.Render
