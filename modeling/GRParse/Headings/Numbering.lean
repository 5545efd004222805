import Mathlib.Algebra.Order.Ring.Rat
import Mathlib.Data.List.DropRight

/-!
# Numbering of headings

The depth a heading's text states: by a number (`1.1`), a letter (`A.`), a roman number (`IV`) or the
word `Appendix`, or by the first of given schemes that reads its enumerator.  Texts are bytes.
-/

namespace GRParse.Headings

/-! ### Bytes -/

def isUpper (c : UInt8) : Bool := 0x41 ≤ c && c ≤ 0x5a

def isLower (c : UInt8) : Bool := 0x61 ≤ c && c ≤ 0x7a

def isLetter (c : UInt8) : Bool := isUpper c || isLower c

def isDigit (c : UInt8) : Bool := 0x30 ≤ c && c ≤ 0x39

/-- `std::isspace` of the plain locale. -/
def isSpace (c : UInt8) : Bool := c = 0x20 || (0x09 ≤ c && c ≤ 0x0d)

/-- `std::isalnum` of the plain locale. -/
def isAlnum (c : UInt8) : Bool := isLetter c || isDigit c

/-- `std::tolower` of the plain locale. -/
def toLower (c : UInt8) : UInt8 := if isUpper c then c + 0x20 else c

/-- `std::toupper` of the plain locale. -/
def toUpper (c : UInt8) : UInt8 := if isLower c then c - 0x20 else c

def trimLeft (text : List UInt8) : List UInt8 := text.dropWhile isSpace

def trimRight (text : List UInt8) : List UInt8 := text.rdropWhile isSpace

def hasLetter (text : List UInt8) : Bool := text.any isLetter

/-- The words of a text; `inWord` when the byte before it was of a word. -/
def wordCountFrom (inWord : Bool) : List UInt8 → ℕ
  | [] => 0
  | c :: rest => (if !isSpace c && !inWord then 1 else 0) + wordCountFrom (!isSpace c) rest

def wordCount (text : List UInt8) : ℕ := wordCountFrom false text

/-! ### Options and headings -/

inductive HeadingNumberingScheme where
  | unspecified
  | part
  | chapter
  | division
  | subdivision
  | article
  | romanU
  | arabic
  | alphaU
  | alphaL
  | romanL
deriving DecidableEq

structure HeadingOptions where
  useNumbering : Bool := true
  useStyle : Bool := true
  maxLevel : ℤ := 6
  styleSizeTolerance : ℚ := 15 / 100
  numberingSchemes : List HeadingNumberingScheme := []
  useFontStyle : Bool := true
  useBookmarks : Bool := true
  bookmarkMatchThreshold : ℚ := 8 / 10

/-- The size ratio the style pass compares by. -/
def HeadingOptions.deeperBelow (options : HeadingOptions) : ℚ :=
  1 - options.styleSizeTolerance

structure HeaderHeight where
  selfRef : String
  height : ℚ := 0
  fontSize : ℚ := 0
  text : List UInt8 := []
  page : ℤ := 0
  top : ℚ := 0
  bottom : ℚ := 0
  hasFontStyle : Bool := false
  bold : Bool := false
  italic : Bool := false

def kMaximumLevel : ℤ := 6

/-- The deepest level that is assigned. -/
def levelCeiling (options : HeadingOptions) : ℤ :=
  max 1 (min options.maxLevel kMaximumLevel)

/-! ### Numbers in a text -/

def kMaximumNumberDigits : ℕ := 3

def kMaximumRomanValue : ℤ := 40

def kMaximumEnumeratedHeadingWords : ℕ := 8

def kMaximumSectionWords : ℕ := 3

def kMinimumSectionLetters : ℕ := 4

/-- The groups of a dot and digits a text begins with, and what is behind them; a group takes two
letters at least, so the fuel is not used up when it is the length of the text. -/
def takeDottedGroupsFrom : ℕ → List UInt8 → ℕ × List UInt8
  | fuel + 1, 0x2e :: digit :: rest =>
    if isDigit digit then
      let (groups, behind) := takeDottedGroupsFrom fuel (rest.dropWhile isDigit)
      (groups + 1, behind)
    else (0, 0x2e :: digit :: rest)
  | _, text => (0, text)

def takeDottedGroups (text : List UInt8) : ℕ × List UInt8 :=
  takeDottedGroupsFrom text.length text

/-- A full stop or a closing bracket. -/
def isCloser (c : UInt8) : Bool := c = 0x2e || c = 0x29

def closed (text : List UInt8) : Bool := text.head?.any isCloser

def takeCloser (text : List UInt8) : List UInt8 :=
  if closed text then text.tail else text

def followedByWords (rest : List UInt8) : Bool :=
  rest.head?.any isSpace && hasLetter (trimLeft rest)

def romanLetterValue (c : UInt8) : ℤ :=
  if c = 0x49 then 1 else if c = 0x56 then 5 else if c = 0x58 then 10 else if c = 0x4c then 50 else 0

/-- A smaller letter before a greater one is subtracted. -/
def romanTotal : List UInt8 → ℤ
  | [] => 0
  | c :: rest =>
    let value := romanLetterValue c
    let next := (rest.head?.map romanLetterValue).getD 0
    (if value < next then -value else value) + romanTotal rest

def romanValue (token : List UInt8) : Option ℤ :=
  if token.isEmpty || token.length > 6 || token.any (fun c => romanLetterValue c = 0) then none
  else some (romanTotal token)

def decimalDepth (text : List UInt8) : Option ℕ :=
  let digits := (text.takeWhile isDigit).length
  if digits = 0 || digits > kMaximumNumberDigits then none
  else
    let (groups, rest) := takeDottedGroups (text.drop digits)
    if followedByWords (takeCloser rest) then some (1 + groups) else none

def letterDepth (text : List UInt8) : Option ℕ :=
  match text with
  | first :: second :: behind =>
    if !isUpper first || isLetter second then none
    else
      let (groups, rest) := takeDottedGroups (second :: behind)
      if !closed rest && groups = 0 then none
      else if followedByWords (takeCloser rest) then some (1 + groups) else none
  | _ => none

def romanDepth (text : List UInt8) : Option ℕ :=
  match romanValue (text.takeWhile isUpper) with
  | none => none
  | some value =>
    if value ≤ 0 || value > kMaximumRomanValue then none
    else
      let (groups, behind) := takeDottedGroups (text.dropWhile isUpper)
      let rest := takeCloser behind
      if !followedByWords rest then none
      else if closed behind || groups > 0 then some (1 + groups)
      else if (trimLeft rest).head?.any isUpper then some (1 + groups) else none

def startsWithWord (text word : List UInt8) : Bool :=
  text.length > word.length && (text.take word.length).map toLower = word &&
    (text.drop word.length).head?.any (fun c => isSpace c || c = 0x3a)

/-- `appendix`. -/
def kAppendix : List UInt8 := [0x61, 0x70, 0x70, 0x65, 0x6e, 0x64, 0x69, 0x78]

def appendixDepth (text : List UInt8) : Option ℕ :=
  if !startsWithWord text kAppendix then none
  else
    let behind := text.drop kAppendix.length
    let rest := trimLeft (if behind.head? = some 0x3a then behind.tail else behind)
    let label : Option (List UInt8) :=
      if rest.head?.any isUpper && !(rest.tail.head?.any isLetter) then some rest.tail
      else if rest.head?.any isDigit then some (rest.dropWhile isDigit)
      else none
    match label with
    | none => if hasLetter rest then some 1 else none
    | some rest =>
      let (groups, rest) := takeDottedGroups rest
      let rest := takeCloser rest
      if rest.isEmpty || followedByWords rest then some (1 + groups) else none

def headingNumberingDepth (text : List UInt8) : Option ℕ :=
  let trimmed := trimLeft text
  if trimmed.isEmpty then none
  else
    (appendixDepth trimmed).or <|
      (decimalDepth trimmed).or <|
        if wordCount trimmed > kMaximumEnumeratedHeadingWords then none
        else (romanDepth trimmed).or (letterDepth trimmed)

/-- The heading is one to three words of capitals. -/
def isSectionWordHeading (text : List UInt8) : Bool :=
  let trimmed := trimRight (trimLeft text)
  if trimmed.isEmpty || (headingNumberingDepth trimmed).isSome then false
  else
    trimmed.all (fun c => isSpace c || isUpper c) && wordCount trimmed ≥ 1 &&
      wordCount trimmed ≤ kMaximumSectionWords &&
      (trimmed.filter isUpper).length ≥ kMinimumSectionLetters

/-! ### Schemes -/

/-- An enumerator a text begins with, and what is behind it. -/
structure Enumerator where
  token : List UInt8
  rest : List UInt8
  closed : Bool := false
  bracketed : Bool := false

def leadingEnumerator (text : List UInt8) : Option Enumerator :=
  if text.head? = some 0x28 then
    match text.findIdx? (· = 0x29) with
    | none => none
    | some close =>
      if close < 2 || close > 8 then none
      else
        some
          { token := (text.take close).drop 1
            rest := text.drop (close + 1)
            closed := true
            bracketed := true }
  else
    let token := text.takeWhile isAlnum
    if token.isEmpty then none else some { token := token, rest := text.dropWhile isAlnum }

def allOfClass (token : List UInt8) (predicate : UInt8 → Bool) : Bool :=
  !token.isEmpty && token.all predicate

def isRomanLower (c : UInt8) : Bool := c = 0x69 || c = 0x76 || c = 0x78 || c = 0x6c

def romanUpperToken (token : List UInt8) : Bool :=
  (romanValue token).any (fun value => 0 < value && value ≤ kMaximumRomanValue)

def romanLowerToken (token : List UInt8) : Bool :=
  allOfClass token isRomanLower && romanUpperToken (token.map toUpper)

structure SchemeNumbering where
  scheme : HeadingNumberingScheme := .unspecified
  subGroups : ℕ := 0

def positionOf (scheme : HeadingNumberingScheme) (allowed : List HeadingNumberingScheme) :
    Option ℕ :=
  allowed.findIdx? (· = scheme)

/-- The words `subdivision`, `division`, `chapter`, `article` and `part`. -/
def kKeywords : List (List UInt8 × HeadingNumberingScheme) :=
  [([0x73, 0x75, 0x62, 0x64, 0x69, 0x76, 0x69, 0x73, 0x69, 0x6f, 0x6e], .subdivision),
    ([0x64, 0x69, 0x76, 0x69, 0x73, 0x69, 0x6f, 0x6e], .division),
    ([0x63, 0x68, 0x61, 0x70, 0x74, 0x65, 0x72], .chapter),
    ([0x61, 0x72, 0x74, 0x69, 0x63, 0x6c, 0x65], .article),
    ([0x70, 0x61, 0x72, 0x74], .part)]

def keywordNumbering (text : List UInt8) : Option SchemeNumbering :=
  match kKeywords.find? (fun keyword => startsWithWord text keyword.1) with
  | none => none
  | some (word, scheme) =>
    let rest := trimLeft (text.drop word.length)
    let label := rest.takeWhile isAlnum
    if label.isEmpty || label.length > 6 then none
    else if allOfClass label isDigit || romanUpperToken label ||
        (label.length = 1 && label.all isLetter) then
      some { scheme := scheme, subGroups := (takeDottedGroups (rest.dropWhile isAlnum)).1 }
    else none

/-- The schemes an enumerator can be read as. -/
def readings (trimmed token rest : List UInt8) (closed : Bool) (subGroups : ℕ) :
    List HeadingNumberingScheme :=
  let short := wordCount trimmed ≤ kMaximumEnumeratedHeadingWords
  let ended := closed || subGroups > 0
  (if allOfClass token isDigit && token.length ≤ kMaximumNumberDigits then [.arabic] else []) ++
    (if short && romanUpperToken token && (ended || (trimLeft rest).head?.any isUpper) then [.romanU]
      else []) ++
    (if short && token.length = 1 && token.all isUpper && ended then [.alphaU] else []) ++
    (if short && romanLowerToken token && closed then [.romanL] else []) ++
    (if short && token.length = 1 && token.all isLower && closed then [.alphaL] else [])

/-- The first of the allowed schemes among the readings. -/
def bestPosition (schemes allowed : List HeadingNumberingScheme) : Option ℕ :=
  (schemes.filterMap (fun scheme => positionOf scheme allowed)).min?

def headingSchemeNumbering (text : List UInt8) (allowed : List HeadingNumberingScheme) :
    Option SchemeNumbering :=
  let trimmed := trimLeft text
  if trimmed.isEmpty || allowed.isEmpty then none
  else
    match keywordNumbering trimmed with
    | some keyword => if (positionOf keyword.scheme allowed).isSome then some keyword else none
    | none =>
      match leadingEnumerator trimmed with
      | none => none
      | some enumerator =>
        let (subGroups, behind) :=
          if enumerator.bracketed then (0, enumerator.rest) else takeDottedGroups enumerator.rest
        let ended := if enumerator.bracketed then enumerator.closed else closed behind
        let rest := if enumerator.bracketed then behind else takeCloser behind
        if !followedByWords rest then none
        else
          match bestPosition (readings trimmed enumerator.token rest ended subGroups) allowed with
          | none => none
          | some best => some { scheme := allowed.getD best .unspecified, subGroups := subGroups }

def headingSchemeDepth (text : List UInt8) (schemes : List HeadingNumberingScheme) : Option ℕ :=
  match headingSchemeNumbering text schemes with
  | none => none
  | some numbering =>
    (positionOf numbering.scheme schemes).map (fun position => position + 1 + numbering.subGroups)

end GRParse.Headings
