import GRParse.Confluence.StorageText
import Mathlib.Data.List.TakeWhile

/-!
# The parser of the storage format

A body is read in one pass: comments, instructions and the doctype are skipped, CDATA is taken as
it is, and everything else becomes a node.  The elements that are open are kept on a stack of
pointers into the tree, the innermost last.

A pointer is the path of its node: which child to take at each step from the root.  A vector that
grows moves its elements, so that a pointer to a node below the one that grows dangles; to use
it has no meaning, which is `none`.
-/

namespace GRParse.Confluence

open List Option

/-! ### Nodes -/

structure Attribute where
  nsPrefix : List UInt8 := []
  name : List UInt8 := []
  value : List UInt8 := []
  deriving DecidableEq

/-- An element, or a run of text. -/
inductive Node where
  | mk (textNode : Bool) (nsPrefix name text : List UInt8) (attributes : List Attribute)
      (children : List Node)

namespace Node

def textNode : Node → Bool
  | mk textNode _ _ _ _ _ => textNode

def nsPrefix : Node → List UInt8
  | mk _ nsPrefix _ _ _ _ => nsPrefix

def name : Node → List UInt8
  | mk _ _ name _ _ _ => name

def children : Node → List Node
  | mk _ _ _ _ _ children => children

/-- A run of text. -/
def ofText (text : List UInt8) : Node :=
  mk true [] [] text [] []

/-- An element. -/
def element (nsPrefix name : List UInt8) (attributes : List Attribute) (children : List Node) :
    Node :=
  mk false nsPrefix name [] attributes children

/-- A node with another child behind its children. -/
def push : Node → Node → Node
  | mk textNode nsPrefix name text attributes children, child =>
    mk textNode nsPrefix name text attributes (children ++ [child])

/-- The node at a path. -/
def at? : List ℕ → Node → Option Node
  | [], node => some node
  | index :: path, node => node.children[index]?.bind (at? path)

/-- The tree with another child behind those of the node at a path. -/
def pushAt (child : Node) : List ℕ → Node → Option Node
  | [], node => some (node.push child)
  | index :: path, mk textNode nsPrefix name text attributes children =>
    (children[index]?.bind (pushAt child path)).map fun node =>
      mk textNode nsPrefix name text attributes (children.set index node)

end Node

/-! ### Names -/

/-- A byte that ends a name. -/
def isSeparator (letter : UInt8) : Bool :=
  isSpace letter || letter = 0x3e || letter = 0x2f || letter = 0x3d

/-- The prefix and the local name of a qualified name. -/
def splitName (qualified : List UInt8) : List UInt8 × List UInt8 :=
  if 0x3a ∈ qualified then
    (lowercase (qualified.takeWhile (· ≠ 0x3a)), lowercase ((qualified.dropWhile (· ≠ 0x3a)).drop 1))
  else ([], lowercase qualified)

/-- `read_name`, and what is left of the input. -/
def readName (input : List UInt8) : (List UInt8 × List UInt8) × List UInt8 :=
  (splitName (input.takeWhile (!isSeparator ·)), input.dropWhile (!isSeparator ·))

def skipSpace (input : List UInt8) : List UInt8 :=
  input.dropWhile isSpace

def qualifiedName (nsPrefix name : List UInt8) : List UInt8 :=
  if nsPrefix = [] then name else nsPrefix ++ [0x3a] ++ name

/-! ### Tags -/

/-- The value of an attribute behind the sign `=` and spaces, and what is left of the input. -/
def readValue (input : List UInt8) : List UInt8 × List UInt8 :=
  match input with
  | quote :: rest =>
    if quote = 0x22 ∨ quote = 0x27 then
      (decodeEntities (rest.takeWhile (· ≠ quote)), (rest.dropWhile (· ≠ quote)).drop 1)
    else
      (decodeEntities (input.takeWhile fun letter => !isSpace letter && letter ≠ 0x3e && letter ≠ 0x2f),
        input.dropWhile fun letter => !isSpace letter && letter ≠ 0x3e && letter ≠ 0x2f)
  | [] => ([], [])

/-- What `read_attributes` finds. -/
structure TagEnd where
  attributes : List Attribute
  selfClosing : Bool := false
  terminated : Bool := false
  rest : List UInt8

theorem length_skipSpace_le (input : List UInt8) :
  (skipSpace input).length ≤ input.length
  := length_dropWhile_le _ _

theorem length_readName_le (input : List UInt8) :
  (readName input).2.length ≤ input.length
  := length_dropWhile_le _ _

theorem length_readValue_le (input : List UInt8) :
  (readValue input).2.length ≤ input.length
  := by
  unfold readValue
  split
  case h_1 quote rest =>
    split
    · have hle := length_dropWhile_le (fun letter => decide (letter ≠ quote)) rest
      simp only [length_drop, length_cons]
      omega
    · exact length_dropWhile_le _ _
  case h_2 => exact Nat.le_refl _

/-- A name that is read is gone from the input. -/
theorem length_readName_lt {input : List UInt8} (h : (readName input).1 ≠ ([], [])) :
  (readName input).2.length < input.length
  := by
  cases input with
  | nil => exact absurd rfl h
  | cons letter rest =>
    have hletter : isSeparator letter = false := by
      by_contra hsep
      apply h
      rw [readName, takeWhile_cons_of_neg (by simpa using hsep)]
      rfl
    rw [readName, dropWhile_cons_of_pos (by simp [hletter])]
    exact Nat.lt_succ_of_le (length_dropWhile_le _ _)

def readAttributes (attributes : List Attribute) (input : List UInt8) : TagEnd :=
  match _hspace : skipSpace input with
  | [] => { attributes, rest := [] }
  | letter :: rest =>
    if letter = 0x3e then { attributes, terminated := true, rest }
    else if letter = 0x2f then
      let behind := skipSpace rest
      if behind.head? = some 0x3e then
        { attributes, selfClosing := true, terminated := true, rest := behind.drop 1 }
      else { attributes, rest := behind }
    else
      let name := readName (letter :: rest)
      if _hname : name.1 = ([], []) then readAttributes attributes (name.2.drop 1)
      else
        let behind := skipSpace name.2
        if behind.head? = some 0x3d then
          let value := readValue (skipSpace (behind.drop 1))
          readAttributes (attributes ++ [⟨name.1.1, name.1.2, value.1⟩]) value.2
        else readAttributes (attributes ++ [⟨name.1.1, name.1.2, []⟩]) behind
termination_by input.length
decreasing_by
  all_goals
    have hspace := length_skipSpace_le input
    rw [_hspace, List.length_cons] at hspace
  · have hle := length_readName_le (letter :: rest)
    rw [List.length_cons] at hle
    rw [List.length_drop]
    omega
  · have hlt := length_readName_lt _hname
    have hbehind := length_skipSpace_le (readName (letter :: rest)).2
    have hvalue := length_readValue_le (skipSpace ((skipSpace (readName (letter :: rest)).2).drop 1))
    have hskip := length_skipSpace_le ((skipSpace (readName (letter :: rest)).2).drop 1)
    rw [List.length_drop] at hskip
    rw [List.length_cons] at hlt
    omega
  · have hlt := length_readName_lt _hname
    have hbehind := length_skipSpace_le (readName (letter :: rest)).2
    rw [List.length_cons] at hlt
    omega

/-! ### Warnings -/

/-- What the parser warns of. -/
inductive Warning where
  | commentUnclosed
  | cdataUnclosed
  | closesNothing (nsPrefix name : List UInt8)
  | closedElements (nsPrefix name : List UInt8) (count : ℕ)
  | startTagUnclosed (name : List UInt8)
  | flattened
  | stillOpen (count : ℕ)
  deriving DecidableEq

/-! ### The parser -/

def kMaxDepth : ℕ := 256

/-- The state of the parser, and the texts of the text nodes that it has made. -/
structure State where
  root : Node := .element [] [0x23, 0x64, 0x6f, 0x63, 0x75, 0x6d, 0x65, 0x6e, 0x74] [] []
  openStack : List (List ℕ) := [[]]
  warnings : List Warning := []
  sawElement : Bool := false
  depthWarned : Bool := false
  made : List (List UInt8) := []

namespace State

def warn (s : State) (warning : Warning) : State :=
  { s with warnings := s.warnings ++ [warning] }

/-- A child behind those of the innermost open element, if no pointer of the stack goes through
the vector that grows. -/
def pushBack (s : State) (child : Node) : Option State :=
  match s.openStack.getLast? with
  | none => none
  | some path =>
    if s.openStack.any fun other => path.isPrefixOf other && path.length < other.length then none
    else (Node.pushAt child path s.root).map fun root => { s with root }

def appendText (s : State) (text : List UInt8) : Option State :=
  (s.pushBack (.ofText text)).map fun s => { s with made := s.made ++ [text] }

end State

/-- Whether the input begins with a token. -/
def startsWith (token input : List UInt8) : Bool :=
  token.isPrefixOf input

/-- What stands before the first place of a token, and what behind it. -/
def splitAtToken (token : List UInt8) : List UInt8 → Option (List UInt8 × List UInt8)
  | [] => if token = [] then some ([], []) else none
  | letter :: rest =>
    if startsWith token (letter :: rest) then some ([], (letter :: rest).drop token.length)
    else (splitAtToken token rest).map fun (before, behind) => (letter :: before, behind)

/-- The texts of the tokens. -/
def kCommentStart : List UInt8 := [0x3c, 0x21, 0x2d, 0x2d]
def kCommentEnd : List UInt8 := [0x2d, 0x2d, 0x3e]
def kCdataStart : List UInt8 := [0x3c, 0x21, 0x5b, 0x43, 0x44, 0x41, 0x54, 0x41, 0x5b]
def kCdataEnd : List UInt8 := [0x5d, 0x5d, 0x3e]
def kInstructionStart : List UInt8 := [0x3c, 0x3f]
def kInstructionEnd : List UInt8 := [0x3f, 0x3e]
def kDeclarationStart : List UInt8 := [0x3c, 0x21]
def kEndTagStart : List UInt8 := [0x3c, 0x2f]

variable (s : State) (input : List UInt8)

def readTextRun : Option (State × List UInt8) :=
  (s.appendText (decodeEntities (input.takeWhile (· ≠ 0x3c)))).map fun s =>
    (s, input.dropWhile (· ≠ 0x3c))

def skipComment : State × List UInt8 :=
  match splitAtToken kCommentEnd (input.drop 4) with
  | none => (s.warn .commentUnclosed, [])
  | some (_, behind) => (s, behind)

def readCdata : Option (State × List UInt8) :=
  match splitAtToken kCdataEnd (input.drop 9) with
  | none => ((s.warn .cdataUnclosed).appendText (input.drop 9)).map fun s => (s, [])
  | some (before, behind) => (s.appendText before).map fun s => (s, behind)

def skipInstruction : List UInt8 :=
  match splitAtToken kInstructionEnd (input.drop 2) with
  | none => []
  | some (_, behind) => behind

/-- `skip_doctype`: to the sign `>`, or to the one behind the brackets. -/
def skipDoctype : List UInt8 :=
  let found := (input.drop 2).dropWhile fun letter => letter ≠ 0x5b && letter ≠ 0x3e
  if found.head? = some 0x5b then
    let subset := ((found.drop 1).dropWhile (· ≠ 0x5d)).drop 1
    (subset.dropWhile (· ≠ 0x3e)).drop 1
  else found.drop 1

/-- The loop of `close_element`: how many elements stay open, the element that is closed included. -/
def openDepth (nsPrefix name : List UInt8) : ℕ → Option ℕ
  | 0 => some 0
  | depth + 1 =>
    if depth = 0 then some 1
    else
      (s.openStack[depth]?.bind fun path => s.root.at? path).bind fun node =>
        if node.nsPrefix = nsPrefix ∧ node.name = name then some (depth + 1)
        else openDepth nsPrefix name depth

def closeElement : Option (State × List UInt8) :=
  let name := readName (input.drop 2)
  let rest := (name.2.dropWhile (· ≠ 0x3e)).drop 1
  (openDepth s name.1.1 name.1.2 s.openStack.length).map fun depth =>
    if depth = 1 then (s.warn (.closesNothing name.1.1 name.1.2), rest)
    else
      let s := if depth ≠ s.openStack.length then
        s.warn (.closedElements name.1.1 name.1.2 (s.openStack.length - depth)) else s
      ({ s with openStack := s.openStack.take (depth - 1) }, rest)

/-- The names of the void elements, from `br` to `meta`. -/
def kVoid : List (List UInt8) :=
  [[0x62, 0x72], [0x68, 0x72], [0x69, 0x6d, 0x67], [0x69, 0x6e, 0x70, 0x75, 0x74],
    [0x63, 0x6f, 0x6c], [0x61, 0x72, 0x65, 0x61], [0x62, 0x61, 0x73, 0x65],
    [0x6d, 0x65, 0x74, 0x61]]

/-- Whether an element never has an end tag. -/
def isVoid (nsPrefix name : List UInt8) : Bool :=
  nsPrefix = [] && kVoid.contains name

/-- The warnings about a start tag. -/
def warnOfTag (name : List UInt8) (tag : TagEnd) (flat : Bool) : State :=
  let s := { s with sawElement := true }
  let s := if tag.terminated then s else s.warn (.startTagUnclosed name)
  if flat && !s.depthWarned then { s.warn .flattened with depthWarned := true } else s

/-- An element behind the children of the innermost open one, and on the stack unless it is closed
at once. -/
def pushElement (element : Node) (closed : Bool) : Option State :=
  (s.openStack.getLast?.bind fun path => s.root.at? path).bind fun parent =>
    (s.pushBack element).map fun s' =>
      if closed then s'
      else
        { s' with
          openStack := s.openStack ++ [s.openStack.getLastD [] ++ [parent.children.length]] }

def readElement : Option (State × List UInt8) :=
  let name := readName (input.drop 1)
  if name.1.2 = [] then (s.appendText [0x3c]).map fun s => (s, name.2)
  else
    let tag := readAttributes [] name.2
    let selfClosing := tag.selfClosing || !tag.terminated || isVoid name.1.1 name.1.2
    let flat := !selfClosing && kMaxDepth < s.openStack.length
    (pushElement (warnOfTag s name.1.2 tag flat)
      (.element name.1.1 name.1.2 tag.attributes []) (selfClosing || flat)).map fun s =>
        (s, tag.rest)

/-- One construct, and what is left of the input. -/
def readConstruct : Option (State × List UInt8) :=
  if input.head? ≠ some 0x3c then readTextRun s input
  else if startsWith kCommentStart input then some (skipComment s input)
  else if startsWith kCdataStart input then readCdata s input
  else if startsWith kInstructionStart input then some (s, skipInstruction input)
  else if startsWith kDeclarationStart input then some (s, skipDoctype input)
  else if startsWith kEndTagStart input then closeElement s input
  else readElement s input

/-! ### Every construct advances -/

variable {s input}

theorem length_readAttributes_le (attributes : List Attribute) (input : List UInt8) :
  (readAttributes attributes input).rest.length ≤ input.length
  := by
  induction hlength : input.length using Nat.strong_induction_on generalizing attributes input with
  | _ length ih =>
    have hspace := length_skipSpace_le input
    rw [readAttributes]
    split
    case h_1 => exact Nat.zero_le _
    case h_2 letter rest heq =>
      rw [heq, length_cons] at hspace
      have hname := length_readName_le (letter :: rest)
      rw [length_cons] at hname
      have hbehind := length_skipSpace_le rest
      have hbehind' := length_skipSpace_le (readName (letter :: rest)).2
      have hvalue := length_readValue_le
        (skipSpace ((skipSpace (readName (letter :: rest)).2).drop 1))
      have hskip := length_skipSpace_le ((skipSpace (readName (letter :: rest)).2).drop 1)
      rw [length_drop] at hskip
      dsimp only
      split_ifs with hgt hslash hclose hempty hvalued
      · dsimp only
        omega
      · rw [length_drop]
        omega
      · dsimp only
        omega
      · have hdrop : ((readName (letter :: rest)).2.drop 1).length < length := by
          rw [length_drop]
          omega
        exact (ih _ hdrop _ _ rfl).trans hdrop.le
      · have hlt := length_readName_lt hempty
        rw [length_cons] at hlt
        exact (ih _ (by omega) _ _ rfl).trans (by omega)
      · have hlt := length_readName_lt hempty
        rw [length_cons] at hlt
        exact (ih _ (by omega) _ _ rfl).trans (by omega)

theorem length_splitAtToken_le {token before behind : List UInt8}
    (h : splitAtToken token input = some (before, behind)) :
  behind.length ≤ input.length
  := by
  induction input generalizing before behind with
  | nil =>
    rw [splitAtToken] at h
    split_ifs at h
    cases h
    exact Nat.le_refl _
  | cons letter rest ih =>
    rw [splitAtToken] at h
    split_ifs at h
    · cases h
      rw [length_drop]
      omega
    · obtain ⟨⟨before', behind'⟩, hrest, heq⟩ := map_eq_some_iff.mp h
      cases heq
      exact (ih hrest).trans (Nat.le_succ _)

theorem length_readConstruct_lt {s' : State} {rest : List UInt8} (hne : input ≠ [])
    (h : readConstruct s input = some (s', rest)) :
  rest.length < input.length
  := by
  have hpos := length_pos_iff.mpr hne
  unfold readConstruct at h
  split_ifs at h with htext hcomment hcdata hinstruction hdeclaration hend
  · obtain ⟨_, _, heq⟩ := map_eq_some_iff.mp h
    cases heq
    obtain ⟨letter, rest, rfl⟩ := exists_cons_of_ne_nil hne
    have hletter : letter ≠ 0x3c := fun heq => htext (by rw [heq]; rfl)
    rw [dropWhile_cons_of_pos (by simpa using hletter)]
    exact Nat.lt_succ_of_le (length_dropWhile_le _ _)
  · have hdrop : (input.drop 4).length < input.length := by
      rw [length_drop]
      omega
    rw [skipComment] at h
    split at h
    case h_1 => cases h; exact hpos
    case h_2 hsplit => cases h; exact (length_splitAtToken_le hsplit).trans_lt hdrop
  · have hdrop : (input.drop 9).length < input.length := by
      rw [length_drop]
      omega
    rw [readCdata] at h
    split at h
    case h_1 =>
      obtain ⟨_, _, heq⟩ := map_eq_some_iff.mp h
      cases heq
      exact hpos
    case h_2 hsplit =>
      obtain ⟨_, _, heq⟩ := map_eq_some_iff.mp h
      cases heq
      exact (length_splitAtToken_le hsplit).trans_lt hdrop
  · have hdrop : (input.drop 2).length < input.length := by
      rw [length_drop]
      omega
    cases h
    rw [skipInstruction]
    split
    case h_1 => exact hpos
    case h_2 hsplit => exact (length_splitAtToken_le hsplit).trans_lt hdrop
  · have hdrop : (input.drop 2).length < input.length := by
      rw [length_drop]
      omega
    cases h
    rw [skipDoctype]
    have hfound := length_dropWhile_le
      (fun letter => decide (letter ≠ 0x5b) && decide (letter ≠ 0x3e)) (input.drop 2)
    generalize (input.drop 2).dropWhile
      (fun letter => decide (letter ≠ 0x5b) && decide (letter ≠ 0x3e)) = found at hfound ⊢
    have hclose := length_dropWhile_le (fun letter => decide (letter ≠ 0x5d)) (found.drop 1)
    have hbehind := length_dropWhile_le (fun letter => decide (letter ≠ 0x3e))
      (((found.drop 1).dropWhile fun letter => decide (letter ≠ 0x5d)).drop 1)
    rw [length_drop] at hclose hbehind
    split
    · rw [length_drop]
      omega
    · rw [length_drop]
      omega
  · obtain ⟨depth, _, heq⟩ := map_eq_some_iff.mp h
    have hrest : rest = ((readName (input.drop 2)).2.dropWhile
        fun letter => decide (letter ≠ 0x3e)).drop 1 := by
      split_ifs at heq <;> cases heq <;> rfl
    have hname := length_readName_le (input.drop 2)
    have hclose := length_dropWhile_le (fun letter => decide (letter ≠ 0x3e))
      (readName (input.drop 2)).2
    rw [length_drop] at hname
    rw [hrest, length_drop]
    omega
  · have hname := length_readName_le (input.drop 1)
    rw [length_drop] at hname
    have htag := length_readAttributes_le [] (readName (input.drop 1)).2
    rw [readElement] at h
    split_ifs at h
    · obtain ⟨_, _, heq⟩ := map_eq_some_iff.mp h
      cases heq
      omega
    · obtain ⟨_, _, heq⟩ := map_eq_some_iff.mp h
      cases heq
      omega

/-- The loop of `parse`. -/
def parseFrom (s : State) (input : List UInt8) : Option State :=
  if _hinput : input = [] then some s
  else
    match _hread : readConstruct s input with
    | none => none
    | some (s, rest) => parseFrom s rest
termination_by input.length
decreasing_by exact length_readConstruct_lt _hinput _hread

def parse (input : List UInt8) : Option State :=
  (parseFrom {} input).map fun s =>
    if 1 < s.openStack.length then s.warn (.stillOpen (s.openStack.length - 1)) else s

end GRParse.Confluence
