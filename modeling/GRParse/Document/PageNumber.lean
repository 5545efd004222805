import GRParse.Document.HyphenBytes
import Mathlib.Data.String.Basic

/-!
# Page numbers

What running headers and footers are compared by, and what stands on a page as nothing but its
number.  Both read the bytes of a text and fold ASCII letters only.
-/

namespace GRParse.Running

open Utf8 Hyphenation.Bytes

def isAsciiDigit (byte : UInt8) : Bool :=
  48 ≤ byte && byte ≤ 57

def kSpace : UInt8 := 32
def kNumberSign : UInt8 := 35
def kSlash : UInt8 := 47

/-- The bytes of a literal. -/
def literal (text : String) : List UInt8 :=
  encode text.toList

/-! ### Running texts -/

/-- What a pass over a text has written, and whether a space is due. -/
structure Folded where
  out : List UInt8 := []
  pendingSpace : Bool := false

/-- The step of `normalize_running_text` and `fold_text`: white space is collapsed, and other bytes
are written behind the space that is due. -/
def foldByte (write : List UInt8 → UInt8 → List UInt8) (s : Folded) (byte : UInt8) : Folded :=
  if isAsciiSpace byte then { s with pendingSpace := !s.out.isEmpty }
  else ⟨write (if s.pendingSpace then s.out ++ [kSpace] else s.out) byte, false⟩

/-- `normalize_running_text`: a run of digits becomes one number sign. -/
def normalizeRunningText (text : List UInt8) : List UInt8 :=
  (text.foldl (foldByte fun out byte =>
    if isAsciiDigit byte then
      if out.getLast? = some kNumberSign then out else out ++ [kNumberSign]
    else out ++ [asciiLower byte]) {}).out

/-- `fold_text`. -/
def foldText (text : List UInt8) : List UInt8 :=
  (text.foldl (foldByte fun out byte => out ++ [asciiLower byte]) {}).out

/-- The number of words of a text. -/
def wordCount (text : List UInt8) : ℕ :=
  (text.foldl (fun (words, inWord) byte =>
    (if !isAsciiSpace byte && !inWord then words + 1 else words, !isAsciiSpace byte))
    ((0, false) : ℕ × Bool)).1

/-! ### Numbers -/

/-- What is behind a literal that starts a token. -/
def takeLiteral (start token : List UInt8) : Option (List UInt8) :=
  if start.isPrefixOf token then some (token.drop start.length) else none

/-- What is behind at most so many literals. -/
def takeUpTo (start : List UInt8) : ℕ → List UInt8 → List UInt8
  | 0, token => token
  | count + 1, token =>
    match takeLiteral start token with
    | some rest => takeUpTo start count rest
    | none => token

/-- What is behind one decimal place: the subtractive pairs, else the five with up to three ones. -/
def takePlace (nine four five one : String) (token : List UInt8) : List UInt8 :=
  match takeLiteral (literal nine) token with
  | some rest => rest
  | none =>
    match takeLiteral (literal four) token with
    | some rest => rest
    | none => takeUpTo (literal one) 3 ((takeLiteral (literal five) token).getD token)

/-- `is_roman_numeral`. -/
def isRomanNumeral (token : List UInt8) : Bool :=
  !token.isEmpty &&
    (takePlace "ix" "iv" "v" "i" (takePlace "xc" "xl" "l" "x"
      (takePlace "cm" "cd" "d" "c" (takeUpTo (literal "m") 4 token)))).isEmpty

/-- The value of a roman digit, zero for any other byte. -/
def romanDigit (byte : UInt8) : ℤ :=
  if byte = 105 then 1 else if byte = 118 then 5 else if byte = 120 then 10
  else if byte = 108 then 50 else if byte = 99 then 100 else if byte = 100 then 500
  else if byte = 109 then 1000 else 0

/-- `roman_value`. -/
def romanValue : List UInt8 → ℤ
  | [] => 0
  | byte :: token =>
    let value := romanDigit byte
    let next := (token.head?.map romanDigit).getD 0
    (if value < next then -value else value) + romanValue token

/-- `number_of`: the value of a token as digits or a roman numeral. -/
def numberOf (token : List UInt8) : Option ℤ :=
  if token.isEmpty then none
  else if token.all isAsciiDigit then
    if 6 < token.length then none
    else some (token.foldl (fun value byte => value * 10 + (byte.toNat - 48 : ℤ)) 0)
  else if isRomanNumeral token then some (romanValue token)
  else none

/-! ### Page numbers -/

def kTokenDecoration : List UInt8 := literal "-|[](){}*_~.,:"
def kSentencePunctuation : List UInt8 := literal ".,;:!?"

/-- The dressings a page number comes in. -/
def kPageNumberShapes : List (List UInt8) :=
  ["#", "# of #", "page #", "page # of #", "page # / #", "p #", "pg #", "seite #", "pagina #",
    "# / #", "# of # pages"].map literal

def kPageNumberSlack : ℤ := 20
def kFirstYear : ℤ := 1800
def kLastYear : ℤ := 2100

/-- `number_punctuated`, with the bytes already passed: digits are followed by punctuation, unless
the text is a number and one period. -/
def numberPunctuated (passed : List UInt8) : List UInt8 → Bool
  | byte :: next :: rest =>
    let bare := next = 46 && rest.isEmpty && (passed ++ [byte]).all isAsciiDigit
    if isAsciiDigit byte && !isAsciiDigit next && next ∈ kSentencePunctuation && !bare then true
    else numberPunctuated (passed ++ [byte]) (next :: rest)
  | _ => false

/-- The tokens of a page number, joined later, and the number that comes first. -/
structure PageNumberTokens where
  shape : List (List UInt8) := []
  value : Option ℤ := none

/-- The `flush` of `page_number_tokens`. -/
def PageNumberTokens.flush (tokens : PageNumberTokens) (token : List UInt8) : PageNumberTokens :=
  let view := (token.dropWhile (· ∈ kTokenDecoration)).rdropWhile (· ∈ kTokenDecoration)
  if view.isEmpty then tokens
  else match numberOf view with
    | some number =>
      ⟨tokens.shape ++ [[kNumberSign]], tokens.value.orElse fun _ => some number⟩
    | none => { tokens with shape := tokens.shape ++ [view] }

/-- `page_number_tokens`, with the token that is open. -/
def pageNumberTokens (tokens : PageNumberTokens) (token : List UInt8) :
    List UInt8 → PageNumberTokens
  | [] => tokens.flush token
  | byte :: folded =>
    if byte = kSpace then pageNumberTokens (tokens.flush token) [] folded
    else if byte = kSlash then
      let flushed := tokens.flush token
      pageNumberTokens { flushed with shape := flushed.shape ++ [[kSlash]] } [] folded
    else pageNumberTokens tokens (token ++ [byte]) folded

/-- `plausible_page_number`. -/
def plausiblePageNumber (value pageCount : ℤ) : Bool :=
  if value < 1 ∨ pageCount + kPageNumberSlack < value then false
  else !(kFirstYear ≤ value ∧ value ≤ kLastYear ∧ pageCount < value)

/-- `is_page_number`. -/
def isPageNumber (text : List UInt8) (pageCount : ℤ) : Bool :=
  let folded := foldText text
  if folded.isEmpty || numberPunctuated [] folded then false
  else
    let tokens := pageNumberTokens {} [] folded
    match tokens.shape, tokens.value with
    | [], _ | _, none => false
    | shape, some value =>
      [kSpace].intercalate shape ∈ kPageNumberShapes && plausiblePageNumber value pageCount

example : isPageNumber (literal "Page 3 of 12") 12 := by decide +kernel

example : isPageNumber (literal "2023.") 30 = false := by decide +kernel

end GRParse.Running
