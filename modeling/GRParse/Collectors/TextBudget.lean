import GRParse.Collectors.Html
import GRParse.Document.References
import GRParse.Lib.SortedMap
import GRParse.Lib.Utf8
import Mathlib

/-!
# The text budget of the matches

The fold of selector matches holds at most 16 MiB of text: what waits in raw buffers, those of the
matches and those of the rules of events without an ordinal, and what the matches have been given.
A counter is charged when text is buffered, refunded when a buffer is flushed, and charged
again for what the decoded text adds to the item of a match.

We model what the events of either kind do to the texts and to the counter.  The counter is
unsigned: a subtraction that would wrap has no result, nor has the access to a match that is not
there.
-/

namespace GRParse.LolHtml.Budget

open Containers List Option Function SortedMap Utf8

/-! ### Cutting bytes -/

/-- The loop of `append_bounded`: back to the beginning of a character. -/
def backOff (bytes : List UInt8) : ℕ → ℕ
  | 0 => 0
  | take + 1 =>
    if take + 1 < bytes.length ∧ ¬ Utf8.startsChar (bytes.getD (take + 1) 0) then backOff bytes take
    else take + 1

/-- The bytes that are taken of a text. -/
def takeBytes (room : ℕ) (bytes : List UInt8) : List UInt8 :=
  bytes.take (backOff bytes (min bytes.length room))

/-- The bytes of a character behind the first continue it. -/
theorem startsChar_getD {char : Char} {place : ℕ} (hpos : 0 < place)
    (h : place < (String.utf8EncodeChar char).length) :
  Utf8.startsChar ((String.utf8EncodeChar char).getD place 0) = false
  := by
  obtain hascii | hwide := Nat.lt_or_ge char.toNat 128
  · rw [utf8EncodeChar_ascii hascii, length_singleton] at h
    omega
  · obtain ⟨lead, continuations, heq, _, hcontinuations⟩ := utf8EncodeChar_wide hwide
    obtain ⟨place, rfl⟩ := Nat.exists_eq_add_of_le' hpos
    rw [heq, length_cons, Nat.add_lt_add_iff_right] at h
    rw [heq, getD_cons_succ, getD_eq_getElem _ _ h]
    exact (hcontinuations _ (getElem_mem h)).2

theorem startsChar_head {char : Char} :
  Utf8.startsChar ((String.utf8EncodeChar char).getD 0 0)
  := by
  have hcount := countP_utf8EncodeChar char
  obtain ⟨first, rest, heq⟩ := exists_cons_of_ne_nil (utf8EncodeChar_ne_nil char)
  have hrest : rest.countP startsChar = 0 := by
    rw [countP_eq_zero]
    intro byte hbyte
    obtain ⟨place, hplace, rfl⟩ := getElem_of_mem hbyte
    have hcontinues := startsChar_getD (Nat.succ_pos place)
      (show place + 1 < (String.utf8EncodeChar char).length by
        rw [heq, length_cons]
        omega)
    rw [heq, getD_cons_succ, getD_eq_getElem _ _ hplace] at hcontinues
    rw [hcontinues]
    exact Bool.false_ne_true
  rw [heq, countP_cons, hrest] at hcount
  rw [heq]
  by_contra hfirst
  rw [getD_cons_zero] at hfirst
  rw [if_neg hfirst] at hcount
  omega

/-- Inside of a character the loop goes back to its beginning. -/
theorem backOff_inside (char : Char) (rest : List UInt8) {take : ℕ}
    (h : take < (String.utf8EncodeChar char).length) :
  backOff (String.utf8EncodeChar char ++ rest) take = 0
  := by
  induction take with
  | zero => rfl
  | succ take ih =>
    have hbyte : (String.utf8EncodeChar char ++ rest).getD (take + 1) 0 =
        (String.utf8EncodeChar char).getD (take + 1) 0 := getD_append _ _ _ _ h
    rw [backOff, hbyte, startsChar_getD (Nat.succ_pos take) h, if_pos, ih (by omega)]
    refine ⟨?_, Bool.false_ne_true⟩
    rw [length_append]
    omega

/-- Behind a character the loop stays behind it. -/
theorem backOff_behind (char : Char) (rest : List Char) (take : ℕ) :
  backOff (String.utf8EncodeChar char ++ Utf8.encode rest)
      ((String.utf8EncodeChar char).length + take) =
    (String.utf8EncodeChar char).length + backOff (Utf8.encode rest) take
  := by
  induction take with
  | zero =>
    obtain ⟨width, hwidth⟩ : ∃ width, (String.utf8EncodeChar char).length = width + 1 :=
      Nat.exists_eq_add_of_le' (length_pos_of_ne_nil (utf8EncodeChar_ne_nil char))
    have hstop : ¬ (width + 1 < (String.utf8EncodeChar char ++ encode rest).length ∧
        ¬ startsChar ((String.utf8EncodeChar char ++ encode rest).getD (width + 1) 0)) := by
      rintro ⟨hlength, hcontinues⟩
      apply hcontinues
      rw [getD_append_right _ _ _ _ (by omega), hwidth, Nat.sub_self]
      cases rest with
      | nil =>
        rw [encode_nil, append_nil] at hlength
        omega
      | cons next rest =>
        rw [encode_cons, getD_append _ _ _ _
          (length_pos_of_ne_nil (utf8EncodeChar_ne_nil next))]
        exact startsChar_head
    have hzero : backOff (encode rest) 0 = 0 := rfl
    rw [hzero, Nat.add_zero, hwidth, backOff, if_neg hstop]
  | succ take ih =>
    have hbyte : (String.utf8EncodeChar char ++ encode rest).getD
        ((String.utf8EncodeChar char).length + take + 1) 0 = (encode rest).getD (take + 1) 0 := by
      rw [getD_append_right _ _ _ _ (by omega)]
      congr 1
      omega
    rw [← Nat.add_assoc, backOff, backOff, hbyte, length_append, ih, Nat.add_assoc]
    simp only [Nat.add_lt_add_iff_left]
    split <;> rfl

/-- Of the bytes of a text those of the characters are taken that fit as a whole. -/
theorem takeBytes_encode (room : ℕ) (chars : List Char) :
  takeBytes room (Utf8.encode chars) = Utf8.encode (takeWithin room chars)
  := by
  induction chars generalizing room with
  | nil => rfl
  | cons char chars ih =>
    have hwidth := String.length_utf8EncodeChar char
    rw [takeBytes, encode_cons, length_append, takeWithin]
    split
    case isTrue hle =>
      have hmin : min ((String.utf8EncodeChar char).length + (encode chars).length) room =
          (String.utf8EncodeChar char).length +
            min (encode chars).length (room - char.utf8Size) := by
        omega
      rw [hmin, backOff_behind, take_length_add_append, encode_cons, ← ih, takeBytes]
    case isFalse hgt =>
      have hmin : min ((String.utf8EncodeChar char).length + (encode chars).length) room =
          room := by
        omega
      rw [hmin, backOff_inside char _ (by omega)]
      rfl

/-! ### The fold -/

/-- A match, with the text and the source spelling of its item, and the decoded text that it has
been given. -/
structure Instance where
  fallback : String := ""
  closed : Bool := false
  raw : String := ""
  type : TextType := .unspecified
  text : String := ""
  orig : String := ""
  given : String := ""
  deriving DecidableEq, Repr

/-- The text node that a rule is in. -/
structure RawTextBuffer where
  raw : String := ""
  textType : TextType := .unspecified
  deriving DecidableEq, Repr

/-- A rule and the ordinal of one of its matches. -/
abbrev Key := String ×ₗ ℕ

def key (ruleId : String) (matchOrdinal : ℕ) : Key :=
  toLex (ruleId, matchOrdinal)

structure Fold where
  instances : SortedMap Key Instance := {}
  openByRule : String → List ℕ := fun _ => []
  rawTextByRule : SortedMap String RawTextBuffer := {}
  /-- The text nodes of events without an ordinal, each with its source spelling. -/
  nodes : List (String × String) := []
  bufferedTextBytes : ℕ := 0
  textLimitWarned : Bool := false
  warnings : List String := []

/-! ### Events -/

/-- One element matches one rule. -/
structure ElementMatched where
  ruleId : String
  tagName : String := ""
  tagNameRaw : String := ""
  ns : Namespace := .unspecified
  canHaveContent : Bool := false
  attributes : List Attribute := []
  matchOrdinal : ℕ := 0
  openMatches : ℕ := 0
  deriving DecidableEq, Repr

structure TextNode where
  ruleId : String
  text : String := ""
  textType : TextType := .unspecified
  lastInNode : Bool := false
  alsoReportedByRule : Bool := false
  matchOrdinal : ℕ := 0
  deriving DecidableEq, Repr

/-- The events; those without an ordinal have the ordinal zero. -/
inductive Event where
  | element (matched : ElementMatched)
  | text (node : TextNode)
  | comment (ruleId : String) (matchOrdinal : ℕ)
  | doctype (ruleId : String)
  | endTag (ruleId : String) (matchOrdinal : ℕ)
  deriving DecidableEq, Repr

namespace ElementMatched

def tag (matched : ElementMatched) : String :=
  lowercaseAscii (if matched.tagName ≠ "" then matched.tagName else matched.tagNameRaw)

/-- `attribute_value`. -/
def attributeValue (matched : ElementMatched) (name : String) : Option String :=
  (matched.attributes.find? fun attr => attr.lowerName = name).map (·.value)

/-- What an element shows in place of text. -/
def fallback (matched : ElementMatched) : String :=
  (["alt", "title", "aria-label"].findSome? fun name =>
    (matched.attributeValue name).filter (· ≠ "")).getD ""

def opens (matched : ElementMatched) : Bool :=
  !(matched.ns = .html && isVoidHtmlElement matched.tag) && matched.canHaveContent

end ElementMatched

/-! ### The counter -/

namespace Fold

/-- `note_text_limit`. -/
def noteTextLimit (fold : Fold) : Fold :=
  if fold.textLimitWarned then fold
  else
    { fold with
      warnings := fold.warnings ++
        ["lol-html text truncated at the collector's 16 MiB text budget"]
      textLimitWarned := true }

def warn (fold : Fold) (warning : String) : Fold :=
  { fold with warnings := fold.warnings ++ [warning] }

/-- `append_bounded`: what is taken of a text, and the fold that is charged for it. -/
def appendBounded (fold : Fold) (text : String) : Option (String × Fold) :=
  if kBufferedTextBytes < fold.bufferedTextBytes then none
  else
    let taken := boundedPrefix (kBufferedTextBytes - fold.bufferedTextBytes) text
    let fold :=
      { fold with bufferedTextBytes := fold.bufferedTextBytes + taken.utf8ByteSize }
    some (taken, if taken.utf8ByteSize ≠ text.utf8ByteSize then fold.noteTextLimit else fold)

def refund (fold : Fold) (bytes : ℕ) : Option Fold :=
  if fold.bufferedTextBytes < bytes then none
  else some { fold with bufferedTextBytes := fold.bufferedTextBytes - bytes }

def modifyInstance (fold : Fold) (key : Key) (f : Instance → Instance) : Fold :=
  { fold with instances := fold.instances.modify key f }

/-- `append_instance_node`. -/
def appendInstanceNode (fold : Fold) (key : Key) (text orig : String) : Option Fold :=
  (fold.instances.find key).bind fun inst =>
    (fold.appendBounded text).bind fun (appended, fold) =>
      if kBufferedTextBytes < inst.orig.utf8ByteSize then none
      else
        let origTaken := boundedPrefix (kBufferedTextBytes - inst.orig.utf8ByteSize) orig
        let fold :=
          if origTaken.utf8ByteSize ≠ orig.utf8ByteSize then fold.noteTextLimit else fold
        some (fold.modifyInstance key fun inst =>
          { inst with
            text := inst.text ++ appended
            orig := inst.orig ++ origTaken
            given := inst.given ++ appended })

section Events

variable (kHtmlEntities : List (String × String)) (options : ExtractOptions)

/-- What a buffered text is decoded to. -/
def decoded (type : TextType) (raw : String) : String :=
  if type = .data ∨ type = .rcdata then decodeHtmlEntities kHtmlEntities raw else raw

/-- `flush_instance_text`. -/
def flushInstanceText (fold : Fold) (key : Key) : Option Fold :=
  (fold.instances.find key).bind fun inst =>
    if inst.raw = "" then some fold
    else
      ((fold.modifyInstance key fun inst => { inst with raw := "" }).refund
        inst.raw.utf8ByteSize).bind fun fold =>
          fold.appendInstanceNode key (decoded kHtmlEntities inst.type inst.raw) inst.raw

/-- `close_instance`. -/
def closeInstance (fold : Fold) (key : Key) : Option Fold :=
  (fold.instances.find key).bind fun inst =>
    if inst.closed then some fold
    else
      (fold.flushInstanceText kHtmlEntities key).map fun fold =>
        fold.modifyInstance key fun inst =>
          if inst.text = "" ∧ inst.fallback ≠ "" then
            { inst with text := inst.fallback, orig := inst.fallback, closed := true }
          else { inst with closed := true }

/-- Matches are closed, one after the other. -/
def closeAll (fold : Fold) (ruleId : String) (ordinals : List ℕ) : Option Fold :=
  ordinals.foldlM (fun fold ordinal => fold.closeInstance kHtmlEntities (key ruleId ordinal)) fold

/-- `flush_raw_text`: a buffer that is there is active. -/
def flushRawText (fold : Fold) (ruleId : String) : Option Fold :=
  match fold.rawTextByRule.find ruleId with
  | none => some fold
  | some buf =>
    ({ fold with rawTextByRule := fold.rawTextByRule.erase ruleId }.refund
      buf.raw.utf8ByteSize).map fun fold =>
        if buf.raw = "" then fold
        else
          { fold with
            nodes := fold.nodes ++ [(decoded kHtmlEntities buf.textType buf.raw, buf.raw)] }

/-- `instance_element`. -/
def instanceElement (fold : Fold) (matched : ElementMatched) : Option Fold :=
  if (fold.instances.find (key matched.ruleId matched.matchOrdinal)).isSome then some fold
  else
    let stack := fold.openByRule matched.ruleId
    (fold.closeAll kHtmlEntities matched.ruleId (stack.drop matched.openMatches).reverse).bind
      fun fold =>
        let fold :=
          { fold with
            openByRule :=
              Function.update fold.openByRule matched.ruleId (stack.take matched.openMatches)
            instances := fold.instances.emplace (key matched.ruleId matched.matchOrdinal)
              { fallback := matched.fallback } }
        if matched.opens then
          some { fold with
            openByRule := Function.update fold.openByRule matched.ruleId
              (fold.openByRule matched.ruleId ++ [matched.matchOrdinal]) }
        else fold.closeInstance kHtmlEntities (key matched.ruleId matched.matchOrdinal)

/-- `element`. -/
def element (fold : Fold) (matched : ElementMatched) : Option Fold :=
  if matched.matchOrdinal ≠ 0 then fold.instanceElement kHtmlEntities matched
  else fold.flushRawText kHtmlEntities matched.ruleId

/-- `instance_text`. -/
def instanceText (fold : Fold) (node : TextNode) : Option Fold :=
  let key := key node.ruleId node.matchOrdinal
  match fold.instances.find key with
  | none => some (fold.warn "lol-html text named an unknown match ordinal")
  | some inst =>
    if inst.closed then some (fold.warn "lol-html text arrived after its match closed")
    else if options.rawTextChunks then
      (fold.appendBounded node.text).bind fun (appended, fold) =>
        let fold := fold.modifyInstance key fun inst =>
          { inst with type := node.textType, raw := inst.raw ++ appended }
        if node.lastInNode then fold.flushInstanceText kHtmlEntities key else some fold
    else fold.appendInstanceNode key node.text node.text

/-- The buffer of a rule, which begins with the first chunk of a text node. -/
def startRawText (fold : Fold) (node : TextNode) : Fold :=
  match fold.rawTextByRule.find node.ruleId with
  | some _ => fold
  | none =>
    { fold with
      rawTextByRule := fold.rawTextByRule.emplace node.ruleId { textType := node.textType } }

/-- `text_node`. -/
def textNode (fold : Fold) (node : TextNode) : Option Fold :=
  if node.matchOrdinal ≠ 0 then fold.instanceText kHtmlEntities options node
  else if node.alsoReportedByRule then some fold
  else if options.rawTextChunks then
    ((fold.startRawText node).appendBounded node.text).bind fun (appended, fold) =>
      let fold :=
        { fold with
          rawTextByRule := fold.rawTextByRule.modify node.ruleId fun buf =>
            { buf with raw := buf.raw ++ appended } }
      if node.lastInNode then fold.flushRawText kHtmlEntities node.ruleId else some fold
  else if node.text = "" ∧ node.lastInNode then some fold
  else some { fold with nodes := fold.nodes ++ [(node.text, node.text)] }

/-- `comment`. -/
def comment (fold : Fold) (ruleId : String) (matchOrdinal : ℕ) : Option Fold :=
  if matchOrdinal ≠ 0 then
    if (fold.instances.find (key ruleId matchOrdinal)).isSome then
      fold.flushInstanceText kHtmlEntities (key ruleId matchOrdinal)
    else some fold
  else fold.flushRawText kHtmlEntities ruleId

/-- `end_tag`. -/
def endTag (fold : Fold) (ruleId : String) (matchOrdinal : ℕ) : Option Fold :=
  if matchOrdinal ≠ 0 then
    let closed :=
      if (fold.instances.find (key ruleId matchOrdinal)).isSome then
        fold.closeInstance kHtmlEntities (key ruleId matchOrdinal)
      else some fold
    closed.bind fun fold =>
      let stack := fold.openByRule ruleId
      let above := stack.takeWhile (· ≠ matchOrdinal)
      (fold.closeAll kHtmlEntities ruleId (stack.drop above.length)).map fun fold =>
        { fold with openByRule := Function.update fold.openByRule ruleId above }
  else fold.flushRawText kHtmlEntities ruleId

/-- What an event does. -/
def step (fold : Fold) : Event → Option Fold
  | .element matched => fold.element kHtmlEntities matched
  | .text node => fold.textNode kHtmlEntities options node
  | .comment ruleId matchOrdinal => fold.comment kHtmlEntities ruleId matchOrdinal
  | .doctype ruleId => fold.flushRawText kHtmlEntities ruleId
  | .endTag ruleId matchOrdinal => fold.endTag kHtmlEntities ruleId matchOrdinal

/-- The fold of a stream of events. -/
def run (events : List Event) : Option Fold :=
  events.foldlM (step kHtmlEntities options) {}

/-- `finish`. -/
def finish (fold : Fold) : Option Fold :=
  (fold.rawTextByRule.keys.foldlM (flushRawText kHtmlEntities) fold).bind fun fold =>
    fold.instances.keys.foldlM (closeInstance kHtmlEntities) fold

end Events

end Fold

/-! ### What is held -/

/-- What a match holds: its buffer, and what it has been given. -/
def Instance.held (inst : Instance) : ℕ :=
  inst.raw.utf8ByteSize + inst.given.utf8ByteSize

/-- The item of a match shows what it has been given, or what its element has in place of text. -/
structure Instance.Sound (inst : Instance) : Prop where
  shows : inst.text = inst.given ∧ inst.orig.utf8ByteSize ≤ kBufferedTextBytes ∨
    inst.closed ∧ inst.given = "" ∧ inst.text = inst.fallback ∧ inst.orig = inst.fallback
  drained : inst.closed → inst.raw = ""

namespace Fold

/-- What the matches and the raw buffers hold. -/
def held (fold : Fold) : ℕ :=
  fold.instances.total Instance.held +
    fold.rawTextByRule.total fun buf => buf.raw.utf8ByteSize

/-- The counter is within the budget and says what is held, but for some bytes that are charged
and not held. -/
structure Kept (more : ℕ) (fold : Fold) : Prop where
  balance : fold.bufferedTextBytes = fold.held + more
  within : fold.bufferedTextBytes ≤ kBufferedTextBytes
  sound : ∀ key inst, fold.instances.find key = some inst → inst.Sound
  opened : ∀ ruleId, ∀ ordinal ∈ fold.openByRule ruleId, key ruleId ordinal ∈ fold.instances.keys

/-- Two folds have the same matches, and the same ones are open. -/
structure SameMatches (fold after : Fold) : Prop where
  keys : after.instances.keys = fold.instances.keys
  openByRule : after.openByRule = fold.openByRule

variable {fold : Fold} {more : ℕ}

theorem kept_start :
  Kept 0 {}
  := ⟨rfl, Nat.zero_le _, nofun, nofun⟩

theorem SameMatches.refl (fold : Fold) :
  fold.SameMatches fold
  := ⟨rfl, rfl⟩

theorem SameMatches.trans {middle after : Fold} (h : fold.SameMatches middle)
    (h' : middle.SameMatches after) :
  fold.SameMatches after
  := ⟨h'.keys.trans h.keys, h'.openByRule.trans h.openByRule⟩

theorem Kept.noteTextLimit (h : fold.Kept more) :
  fold.noteTextLimit.Kept more
  := by
  unfold Fold.noteTextLimit
  split
  · exact h
  · exact ⟨h.balance, h.within, h.sound, h.opened⟩

theorem noteTextLimit_eq (fold : Fold) :
  fold.noteTextLimit.instances = fold.instances ∧
    fold.noteTextLimit.openByRule = fold.openByRule ∧
    fold.noteTextLimit.rawTextByRule = fold.rawTextByRule
  := by
  unfold Fold.noteTextLimit
  split <;> exact ⟨rfl, rfl, rfl⟩

theorem utf8ByteSize_boundedPrefix_le (room : ℕ) (text : String) :
  (boundedPrefix room text).utf8ByteSize ≤ room
  := by
  have hchars : ∀ (chars : List Char) (room : ℕ), String.utf8Len (takeWithin room chars) ≤ room := by
    intro chars
    induction chars with
    | nil => exact fun _ => Nat.zero_le _
    | cons char chars ih =>
      intro room
      rw [takeWithin]
      split
      case isTrue hle =>
        have hrest := ih (room - char.utf8Size)
        rw [String.utf8Len_cons]
        omega
      case isFalse => exact Nat.zero_le _
  rw [boundedPrefix, ← String.utf8Len_toList, String.toList_ofList]
  exact hchars text.toList room

/-- Text is charged for as far as it fits. -/
theorem Kept.appendBounded (h : fold.Kept more) (text : String) :
  ∃ taken fold', fold.appendBounded text = some (taken, fold') ∧
    fold'.Kept (more + taken.utf8ByteSize) ∧ fold'.instances = fold.instances ∧
    fold'.openByRule = fold.openByRule ∧ fold'.rawTextByRule = fold.rawTextByRule
  := by
  have hwithin := h.within
  have hbalance := h.balance
  have hsize := utf8ByteSize_boundedPrefix_le (kBufferedTextBytes - fold.bufferedTextBytes) text
  rw [Fold.appendBounded, if_neg (Nat.not_lt.mpr hwithin)]
  dsimp only
  generalize boundedPrefix (kBufferedTextBytes - fold.bufferedTextBytes) text = taken at hsize
  have hcharged : Kept (more + taken.utf8ByteSize)
      { fold with bufferedTextBytes := fold.bufferedTextBytes + taken.utf8ByteSize } := by
    refine ⟨?_, ?_, h.sound, h.opened⟩
    · change _ = fold.held + _
      dsimp only
      omega
    · dsimp only
      omega
  split
  · exact ⟨taken, _, rfl, hcharged.noteTextLimit, noteTextLimit_eq _⟩
  · exact ⟨taken, _, rfl, hcharged, rfl, rfl, rfl⟩

theorem Kept.refund {bytes : ℕ} (h : fold.Kept (more + bytes)) :
  ∃ fold', fold.refund bytes = some fold' ∧ fold'.Kept more ∧
    fold'.instances = fold.instances ∧ fold'.openByRule = fold.openByRule ∧
    fold'.rawTextByRule = fold.rawTextByRule
  := by
  have hwithin := h.within
  have hbalance := h.balance
  rw [Fold.refund, if_neg (by omega)]
  refine ⟨_, rfl, ⟨?_, ?_, h.sound, h.opened⟩, rfl, rfl, rfl⟩
  · change _ = fold.held + _
    dsimp only
    omega
  · dsimp only
    omega

/-- A match is changed, and what it holds from then on is no longer charged without being held. -/
theorem Kept.modifyInstance (h : fold.Kept more) {key : Key} {inst : Instance}
    (hfind : fold.instances.find key = some inst) {f : Instance → Instance} (hsound : (f inst).Sound)
    {after : ℕ} (hheld : more + inst.held = after + (f inst).held) :
  (fold.modifyInstance key f).Kept after
  := by
  have htotal := total_modify Instance.held hfind f
  refine ⟨?_, h.within, ?_, ?_⟩
  · have hbalance := h.balance
    rw [held] at hbalance
    change fold.bufferedTextBytes = (fold.instances.modify key f).total Instance.held +
      (fold.rawTextByRule.total fun buf => buf.raw.utf8ByteSize) + after
    omega
  · intro other found hother
    rw [Fold.modifyInstance, find_modify] at hother
    split at hother
    case isTrue =>
      rw [hfind] at hother
      obtain rfl := some.inj hother
      exact hsound
    case isFalse => exact h.sound other found hother
  · intro ruleId ordinal hmem
    rw [Fold.modifyInstance, keys_modify]
    exact h.opened ruleId ordinal hmem

theorem sameMatches_modifyInstance (fold : Fold) (key : Key) (f : Instance → Instance) :
  fold.SameMatches (fold.modifyInstance key f)
  := ⟨keys_modify .., rfl⟩

/-! ### The functions of the fold -/

/-- An open match is given text as far as the budget goes. -/
theorem Kept.appendInstanceNode (h : fold.Kept 0) {key : Key} {inst : Instance}
    (hfind : fold.instances.find key = some inst) (hopen : inst.closed = false)
    (text orig : String) :
  ∃ fold', fold.appendInstanceNode key text orig = some fold' ∧ fold'.Kept 0 ∧
    fold.SameMatches fold' ∧
    ∃ inst', fold'.instances.find key = some inst' ∧ inst'.raw = inst.raw ∧ inst'.closed = false
  := by
  obtain ⟨taken, charged, happend, hcharged, hinstances, hopened, hbuffers⟩ := h.appendBounded text
  obtain ⟨⟨htext, horig⟩ | ⟨hclosed, _⟩, hdrained⟩ := h.sound key inst hfind
  case inr => rw [hopen] at hclosed; cases hclosed
  have hsize := utf8ByteSize_boundedPrefix_le
    (kBufferedTextBytes - inst.orig.utf8ByteSize) orig
  rw [Fold.appendInstanceNode, hfind, bind_some, happend, bind_some]
  dsimp only
  rw [if_neg (Nat.not_lt.mpr horig)]
  generalize boundedPrefix (kBufferedTextBytes - inst.orig.utf8ByteSize) orig = origTaken at hsize
  have hnoted : ∃ noted : Fold, (if origTaken.utf8ByteSize ≠ orig.utf8ByteSize then
      charged.noteTextLimit else charged) = noted ∧ noted.Kept (0 + taken.utf8ByteSize) ∧
      noted.instances = fold.instances ∧ noted.openByRule = fold.openByRule ∧
      noted.rawTextByRule = fold.rawTextByRule := by
    obtain ⟨hsame, hsame', hsame''⟩ := noteTextLimit_eq charged
    split
    · exact ⟨_, rfl, hcharged.noteTextLimit, hsame.trans hinstances, hsame'.trans hopened,
        hsame''.trans hbuffers⟩
    · exact ⟨_, rfl, hcharged, hinstances, hopened, hbuffers⟩
  obtain ⟨noted, heq, hkept, hinstances', hopened', hbuffers'⟩ := hnoted
  rw [heq]
  refine ⟨_, rfl, hkept.modifyInstance (hinstances' ▸ hfind) ?_ ?_, ?_, ?_⟩
  · refine ⟨.inl ⟨by rw [htext], ?_⟩, hdrained⟩
    rw [String.utf8ByteSize_append]
    omega
  · simp only [Instance.held, String.utf8ByteSize_append]
    omega
  · exact ⟨(keys_modify ..).trans (by rw [hinstances']), hopened'⟩
  · rw [Fold.modifyInstance, find_modify, if_pos rfl, hinstances', hfind]
    exact ⟨_, rfl, rfl, hopen⟩

section Events

variable (kHtmlEntities : List (String × String)) {options : ExtractOptions}

/-- The buffer of a match is flushed. -/
theorem Kept.flushInstanceText (h : fold.Kept 0) {key : Key} {inst : Instance}
    (hfind : fold.instances.find key = some inst) :
  ∃ fold', fold.flushInstanceText kHtmlEntities key = some fold' ∧ fold'.Kept 0 ∧
    fold.SameMatches fold' ∧
    ∃ inst', fold'.instances.find key = some inst' ∧ inst'.raw = "" ∧
      inst'.closed = inst.closed
  := by
  rw [Fold.flushInstanceText, hfind, bind_some]
  split
  case isTrue hempty => exact ⟨fold, rfl, h, .refl fold, inst, hfind, hempty, rfl⟩
  case isFalse hraw =>
    obtain ⟨hshows, hdrained⟩ := h.sound key inst hfind
    have hopen : inst.closed = false := Bool.eq_false_iff.mpr fun hclosed => hraw (hdrained hclosed)
    have hemptied : (fold.modifyInstance key fun inst => { inst with raw := "" }).Kept
        (0 + inst.raw.utf8ByteSize) := by
      apply h.modifyInstance hfind ⟨hshows, fun _ => rfl⟩
      simp only [Instance.held, String.utf8ByteSize_empty]
      omega
    have hfind' : (fold.modifyInstance key fun inst => { inst with raw := "" }).instances.find key =
        some { inst with raw := "" } := by
      rw [Fold.modifyInstance, find_modify, if_pos rfl, hfind]
      rfl
    have hsame := sameMatches_modifyInstance fold key fun inst => { inst with raw := "" }
    obtain ⟨refunded, hrefund, hkept, hinstances, hopened, _⟩ := hemptied.refund
    have hfound : refunded.instances.find key = some { inst with raw := "" } := by
      rw [hinstances]
      exact hfind'
    obtain ⟨after, happend, hafter, hsame', inst', hinst', hraw', hopen'⟩ :=
      hkept.appendInstanceNode hfound hopen (decoded kHtmlEntities inst.type inst.raw) inst.raw
    rw [hrefund, bind_some, happend]
    refine ⟨after, rfl, hafter, ?_, inst', hinst', hraw', hopen'.trans hopen.symm⟩
    exact hsame.trans (SameMatches.trans ⟨by rw [hinstances], hopened⟩ hsame')

/-- A match is closed. -/
theorem Kept.closeInstance (h : fold.Kept 0) {key : Key} (hkey : key ∈ fold.instances.keys) :
  ∃ fold', fold.closeInstance kHtmlEntities key = some fold' ∧ fold'.Kept 0 ∧
    fold.SameMatches fold'
  := by
  obtain ⟨inst, hfind⟩ := exists_find hkey
  rw [Fold.closeInstance, hfind, bind_some]
  split
  case isTrue => exact ⟨fold, rfl, h, .refl fold⟩
  case isFalse hopen =>
    obtain ⟨flushed, hflush, hkept, hsame, inst', hfind', hraw, hclosed⟩ :=
      h.flushInstanceText kHtmlEntities hfind
    rw [hflush, map_some]
    refine ⟨_, rfl, hkept.modifyInstance hfind' ?_ ?_,
      hsame.trans (sameMatches_modifyInstance ..)⟩
    · obtain ⟨⟨htext, horig⟩ | ⟨hclosed', _⟩, _⟩ := hkept.sound key inst' hfind'
      case inr => exact absurd (hclosed ▸ hclosed') hopen
      split
      case isTrue hempty =>
        exact ⟨.inr ⟨rfl, htext ▸ hempty.1, rfl, rfl⟩, fun _ => hraw⟩
      case isFalse => exact ⟨.inl ⟨htext, horig⟩, fun _ => hraw⟩
    · split <;> rfl

theorem Kept.closeAll (h : fold.Kept 0) {ruleId : String} {ordinals : List ℕ}
    (hkeys : ∀ ordinal ∈ ordinals, key ruleId ordinal ∈ fold.instances.keys) :
  ∃ fold', fold.closeAll kHtmlEntities ruleId ordinals = some fold' ∧ fold'.Kept 0 ∧
    fold.SameMatches fold'
  := by
  induction ordinals generalizing fold with
  | nil => exact ⟨fold, rfl, h, .refl fold⟩
  | cons ordinal ordinals ih =>
    obtain ⟨hfirst, hothers⟩ := forall_mem_cons.mp hkeys
    obtain ⟨closed, hclose, hkept, hsame⟩ := h.closeInstance kHtmlEntities hfirst
    obtain ⟨after, hrest, hafter, hsame'⟩ := ih hkept (by rwa [hsame.keys])
    rw [Fold.closeAll, foldlM_cons, hclose]
    exact ⟨after, hrest, hafter, hsame.trans hsame'⟩

/-- The buffer of a rule is flushed. -/
theorem Kept.flushRawText (h : fold.Kept 0) (ruleId : String) :
  ∃ fold', fold.flushRawText kHtmlEntities ruleId = some fold' ∧ fold'.Kept 0 ∧
    fold.SameMatches fold'
  := by
  unfold Fold.flushRawText
  split
  case h_1 => exact ⟨fold, rfl, h, .refl fold⟩
  case h_2 buf hfind =>
    have htotal := total_erase (fun buf : RawTextBuffer => buf.raw.utf8ByteSize) hfind
    have hbalance := h.balance
    have herased : Kept (0 + buf.raw.utf8ByteSize)
        { fold with rawTextByRule := fold.rawTextByRule.erase ruleId } := by
      refine ⟨?_, h.within, h.sound, h.opened⟩
      rw [held] at hbalance ⊢
      dsimp only
      omega
    obtain ⟨refunded, hrefund, hkept, hinstances, hopened, _⟩ := herased.refund
    rw [hrefund, map_some]
    have hsame : fold.SameMatches refunded := ⟨by rw [hinstances], hopened⟩
    split
    · exact ⟨refunded, rfl, hkept, hsame⟩
    · exact ⟨_, rfl, ⟨hkept.balance, hkept.within, hkept.sound, hkept.opened⟩,
        ⟨hsame.keys, hsame.openByRule⟩⟩

/-- A match that is found holds nothing. -/
theorem Kept.emplace (h : fold.Kept 0) {key : Key} (hnew : key ∉ fold.instances.keys)
    (fallback : String) {opened : String → List ℕ}
    (hopened : ∀ ruleId, ∀ ordinal ∈ opened ruleId,
      Budget.key ruleId ordinal = key ∨ Budget.key ruleId ordinal ∈ fold.instances.keys) :
  Kept 0 { fold with
    openByRule := opened
    instances := fold.instances.emplace key { fallback := fallback } }
  := by
  have htotal := total_emplace Instance.held hnew { fallback := fallback }
  have hempty : Instance.held { fallback := fallback } = 0 := rfl
  have hbalance := h.balance
  rw [held] at hbalance
  refine ⟨?_, h.within, ?_, ?_⟩
  · rw [held]
    dsimp only
    omega
  · intro other found hother
    rw [find_emplace hnew] at hother
    split at hother
    case isTrue =>
      obtain rfl := some.inj hother
      exact ⟨.inl ⟨rfl, Nat.zero_le _⟩, fun _ => rfl⟩
    case isFalse => exact h.sound other found hother
  · intro ruleId ordinal hmem
    exact (mem_keys_emplace ..).mpr (hopened ruleId ordinal hmem)

theorem Kept.instanceElement (h : fold.Kept 0) (matched : ElementMatched) :
  ∃ fold', fold.instanceElement kHtmlEntities matched = some fold' ∧ fold'.Kept 0
  := by
  unfold Fold.instanceElement
  split
  case isTrue => exact ⟨fold, rfl, h⟩
  case isFalse hmissing =>
    have hnew : key matched.ruleId matched.matchOrdinal ∉ fold.instances.keys := by
      rwa [find_isSome] at hmissing
    have habove : ∀ ordinal ∈
        ((fold.openByRule matched.ruleId).drop matched.openMatches).reverse,
          key matched.ruleId ordinal ∈ fold.instances.keys := fun ordinal hmem =>
      h.opened _ ordinal (mem_of_mem_drop (mem_reverse.mp hmem))
    obtain ⟨closed, hclose, hkept, hsame⟩ := h.closeAll kHtmlEntities habove
    dsimp only
    rw [hclose, bind_some]
    rw [← hsame.keys] at hnew
    have hopened : ∀ ruleId, ∀ ordinal ∈ update closed.openByRule matched.ruleId
        ((fold.openByRule matched.ruleId).take matched.openMatches) ruleId,
          key ruleId ordinal ∈ closed.instances.keys := by
      intro ruleId ordinal hmem
      by_cases hrule : ruleId = matched.ruleId
      · subst hrule
        rw [update_self] at hmem
        rw [hsame.keys]
        exact h.opened _ ordinal (mem_of_mem_take hmem)
      · rw [update_of_ne hrule] at hmem
        exact hkept.opened ruleId ordinal hmem
    split
    case isTrue =>
      refine ⟨_, rfl, hkept.emplace hnew matched.fallback ?_⟩
      intro ruleId ordinal hmem
      by_cases hrule : ruleId = matched.ruleId
      · subst hrule
        rw [update_self, mem_append, mem_singleton] at hmem
        rcases hmem with hmem | rfl
        · exact .inr (hopened _ ordinal hmem)
        · exact .inl rfl
      · rw [update_of_ne hrule] at hmem
        exact .inr (hopened ruleId ordinal hmem)
    case isFalse =>
      obtain ⟨after, hafter, hkept', _⟩ := (hkept.emplace hnew matched.fallback
        fun ruleId ordinal hmem => .inr (hopened ruleId ordinal hmem)).closeInstance kHtmlEntities
          ((mem_keys_emplace ..).mpr (.inl rfl))
      exact ⟨after, hafter, hkept'⟩

theorem Kept.element (h : fold.Kept 0) (matched : ElementMatched) :
  ∃ fold', fold.element kHtmlEntities matched = some fold' ∧ fold'.Kept 0
  := by
  unfold Fold.element
  split
  · exact h.instanceElement kHtmlEntities matched
  · obtain ⟨after, hflush, hkept, _⟩ := h.flushRawText kHtmlEntities matched.ruleId
    exact ⟨after, hflush, hkept⟩

theorem Kept.warn (h : fold.Kept 0) (warning : String) :
  (fold.warn warning).Kept 0
  := ⟨h.balance, h.within, h.sound, h.opened⟩

theorem Kept.instanceText (h : fold.Kept 0) (node : TextNode) :
  ∃ fold', fold.instanceText kHtmlEntities options node = some fold' ∧ fold'.Kept 0
  := by
  unfold Fold.instanceText
  dsimp only
  split
  case h_1 => exact ⟨_, rfl, h.warn _⟩
  case h_2 inst hfind =>
    split
    case isTrue => exact ⟨_, rfl, h.warn _⟩
    case isFalse hclosed =>
      split
      case isTrue =>
        obtain ⟨taken, charged, happend, hcharged, hinstances, _⟩ := h.appendBounded node.text
        obtain ⟨hshows, _⟩ := h.sound _ inst hfind
        have hfind' : charged.instances.find (key node.ruleId node.matchOrdinal) = some inst := by
          rw [hinstances, hfind]
        have hbuffered : Kept 0 (charged.modifyInstance (key node.ruleId node.matchOrdinal)
            fun inst => { inst with type := node.textType, raw := inst.raw ++ taken }) := by
          apply hcharged.modifyInstance hfind' ⟨hshows, fun hclosed' => absurd hclosed' hclosed⟩
          simp only [Instance.held, String.utf8ByteSize_append]
          omega
        have hfound : (charged.modifyInstance (key node.ruleId node.matchOrdinal)
            fun inst => { inst with type := node.textType, raw := inst.raw ++ taken }).instances.find
              (key node.ruleId node.matchOrdinal) =
                some { inst with type := node.textType, raw := inst.raw ++ taken } := by
          rw [Fold.modifyInstance, find_modify, if_pos rfl, hfind']
          rfl
        rw [happend, bind_some]
        dsimp only
        split
        · obtain ⟨after, hflush, hkept, _⟩ := hbuffered.flushInstanceText kHtmlEntities hfound
          exact ⟨after, hflush, hkept⟩
        · exact ⟨_, rfl, hbuffered⟩
      case isFalse =>
        obtain ⟨after, happend, hkept, _⟩ :=
          h.appendInstanceNode hfind (Bool.eq_false_iff.mpr hclosed) node.text node.text
        exact ⟨after, happend, hkept⟩

/-- The buffer of a rule begins empty. -/
theorem Kept.startRawText (h : fold.Kept 0) (node : TextNode) :
  (fold.startRawText node).Kept 0 ∧
    ∃ buf, (fold.startRawText node).rawTextByRule.find node.ruleId = some buf
  := by
  unfold Fold.startRawText
  split
  case h_1 buf hfind => exact ⟨h, buf, hfind⟩
  case h_2 hfind =>
    have hnew := (find_eq_none _ _).mp hfind
    have htotal := total_emplace (fun buf : RawTextBuffer => buf.raw.utf8ByteSize) hnew
      { textType := node.textType }
    have hempty : ("" : String).utf8ByteSize = 0 := rfl
    have hbalance := h.balance
    rw [held] at hbalance
    refine ⟨⟨?_, h.within, h.sound, h.opened⟩, { textType := node.textType }, ?_⟩
    · rw [held]
      dsimp only at htotal ⊢
      omega
    · rw [find_emplace hnew, if_pos rfl]

/-- A text node, or a chunk of one. -/
theorem Kept.textNode (h : fold.Kept 0) (node : TextNode) :
  ∃ fold', fold.textNode kHtmlEntities options node = some fold' ∧ fold'.Kept 0
  := by
  unfold Fold.textNode
  split
  case isTrue => exact h.instanceText kHtmlEntities node
  case isFalse =>
    split
    case isTrue => exact ⟨fold, rfl, h⟩
    case isFalse =>
      split
      case isTrue =>
        obtain ⟨hstart, buf, hbuf⟩ := h.startRawText node
        obtain ⟨taken, charged, happend, hcharged, _, _, hbuffers⟩ := hstart.appendBounded node.text
        rw [happend, bind_some]
        dsimp only
        rw [← hbuffers] at hbuf
        have htotal := total_modify (fun buf : RawTextBuffer => buf.raw.utf8ByteSize) hbuf
          fun buf => { buf with raw := buf.raw ++ taken }
        have hbalance := hcharged.balance
        rw [held] at hbalance
        rw [String.utf8ByteSize_append] at htotal
        have hbuffered : Kept 0 { charged with
            rawTextByRule := charged.rawTextByRule.modify node.ruleId fun buf =>
              { buf with raw := buf.raw ++ taken } } := by
          refine ⟨?_, hcharged.within, hcharged.sound, hcharged.opened⟩
          rw [held]
          dsimp only
          omega
        split
        · obtain ⟨after, hflush, hkept, _⟩ := hbuffered.flushRawText kHtmlEntities node.ruleId
          exact ⟨after, hflush, hkept⟩
        · exact ⟨_, rfl, hbuffered⟩
      case isFalse =>
        split
        · exact ⟨fold, rfl, h⟩
        · exact ⟨_, rfl, ⟨h.balance, h.within, h.sound, h.opened⟩⟩

theorem Kept.comment (h : fold.Kept 0) (ruleId : String) (matchOrdinal : ℕ) :
  ∃ fold', fold.comment kHtmlEntities ruleId matchOrdinal = some fold' ∧ fold'.Kept 0
  := by
  unfold Fold.comment
  split
  case isTrue =>
    split
    case isTrue hfound =>
      obtain ⟨inst, hfind⟩ := isSome_iff_exists.mp hfound
      obtain ⟨after, hflush, hkept, _⟩ := h.flushInstanceText kHtmlEntities hfind
      exact ⟨after, hflush, hkept⟩
    case isFalse => exact ⟨fold, rfl, h⟩
  case isFalse =>
    obtain ⟨after, hflush, hkept, _⟩ := h.flushRawText kHtmlEntities ruleId
    exact ⟨after, hflush, hkept⟩

theorem Kept.endTag (h : fold.Kept 0) (ruleId : String) (matchOrdinal : ℕ) :
  ∃ fold', fold.endTag kHtmlEntities ruleId matchOrdinal = some fold' ∧ fold'.Kept 0
  := by
  unfold Fold.endTag
  split
  case isTrue =>
    have hown : ∃ closed, (if (fold.instances.find (key ruleId matchOrdinal)).isSome then
        fold.closeInstance kHtmlEntities (key ruleId matchOrdinal) else some fold) = some closed ∧
        closed.Kept 0 := by
      split
      case isTrue hfound =>
        obtain ⟨closed, hclose, hkept, _⟩ := h.closeInstance kHtmlEntities
          ((find_isSome ..).mp hfound)
        exact ⟨closed, hclose, hkept⟩
      case isFalse => exact ⟨fold, rfl, h⟩
    obtain ⟨closed, hclose, hkept⟩ := hown
    obtain ⟨after, hafter, hkept', hsame⟩ := hkept.closeAll kHtmlEntities
      (fun ordinal hmem => hkept.opened ruleId ordinal (mem_of_mem_drop hmem))
    dsimp only
    rw [hclose, bind_some, hafter, map_some]
    refine ⟨_, rfl, hkept'.balance, hkept'.within, hkept'.sound, ?_⟩
    intro rule ordinal hmem
    by_cases hrule : rule = ruleId
    · subst hrule
      dsimp only at hmem
      rw [update_self] at hmem
      rw [hsame.keys]
      exact hkept.opened _ ordinal (takeWhile_subset _ hmem)
    · dsimp only at hmem
      rw [update_of_ne hrule] at hmem
      exact hkept'.opened rule ordinal hmem
  case isFalse =>
    obtain ⟨after, hflush, hkept, _⟩ := h.flushRawText kHtmlEntities ruleId
    exact ⟨after, hflush, hkept⟩

theorem Kept.step (h : fold.Kept 0) (event : Event) :
  ∃ fold', fold.step kHtmlEntities options event = some fold' ∧ fold'.Kept 0
  := by
  cases event with
  | element matched => exact h.element kHtmlEntities matched
  | text node => exact h.textNode kHtmlEntities node
  | comment ruleId matchOrdinal => exact h.comment kHtmlEntities ruleId matchOrdinal
  | doctype ruleId =>
    obtain ⟨after, hflush, hkept, _⟩ := h.flushRawText kHtmlEntities ruleId
    exact ⟨after, hflush, hkept⟩
  | endTag ruleId matchOrdinal => exact h.endTag kHtmlEntities ruleId matchOrdinal

/-- A run of the fold from any state that is kept. -/
theorem Kept.run (h : fold.Kept 0) (events : List Event) :
  ∃ fold', events.foldlM (Fold.step kHtmlEntities options) fold = some fold' ∧ fold'.Kept 0
  := by
  induction events generalizing fold with
  | nil => exact ⟨fold, rfl, h⟩
  | cons event events ih =>
    obtain ⟨middle, hstep, hkept⟩ := h.step kHtmlEntities event
    obtain ⟨after, hrest, hafter⟩ := ih hkept
    rw [foldlM_cons, hstep]
    exact ⟨after, hrest, hafter⟩

theorem Kept.finish (h : fold.Kept 0) :
  ∃ fold', fold.finish kHtmlEntities = some fold' ∧ fold'.Kept 0
  := by
  have hbuffers : ∀ (ruleIds : List String) {fold : Fold}, fold.Kept 0 →
      ∃ fold', ruleIds.foldlM (Fold.flushRawText kHtmlEntities) fold = some fold' ∧
        fold'.Kept 0 := by
    intro ruleIds
    induction ruleIds with
    | nil => exact fun h => ⟨_, rfl, h⟩
    | cons ruleId ruleIds ih =>
      intro fold h
      obtain ⟨flushed, hflush, hkept, _⟩ := h.flushRawText kHtmlEntities ruleId
      rw [foldlM_cons, hflush]
      exact ih hkept
  have hmatches : ∀ (keys : List Key) {fold : Fold}, fold.Kept 0 →
      (∀ key ∈ keys, key ∈ fold.instances.keys) →
      ∃ fold', keys.foldlM (Fold.closeInstance kHtmlEntities) fold = some fold' ∧
        fold'.Kept 0 := by
    intro keys
    induction keys with
    | nil => exact fun h _ => ⟨_, rfl, h⟩
    | cons key keys ih =>
      intro fold h hkeys
      obtain ⟨hfirst, hothers⟩ := forall_mem_cons.mp hkeys
      obtain ⟨closed, hclose, hkept, hsame⟩ := h.closeInstance kHtmlEntities hfirst
      rw [foldlM_cons, hclose]
      exact ih hkept (by rwa [hsame.keys])
  obtain ⟨flushed, hflush, hkept⟩ := hbuffers fold.rawTextByRule.keys h
  rw [Fold.finish, hflush, bind_some]
  exact hmatches flushed.instances.keys hkept fun _ hmem => hmem

end Events

end Fold

/-! ### Whole runs -/

/-- The counter says what is held, which is within the budget, and no item of a match exceeds it,
but for what an element has in place of text. -/
def Fold.WithinBudget (fold : Fold) : Prop :=
  fold.bufferedTextBytes = fold.held ∧ fold.bufferedTextBytes ≤ kBufferedTextBytes ∧
    ∀ key inst, fold.instances.find key = some inst →
      inst.text.utf8ByteSize ≤ kBufferedTextBytes ∧ inst.orig.utf8ByteSize ≤ kBufferedTextBytes ∧
          inst.text = inst.given ∨
        inst.given = "" ∧ inst.text = inst.fallback ∧ inst.orig = inst.fallback

theorem Fold.Kept.withinBudget {fold : Fold} (h : fold.Kept 0) :
  fold.WithinBudget
  := by
  have hbalance := h.balance
  have hwithin := h.within
  refine ⟨hbalance, hwithin, ?_⟩
  intro key inst hfind
  obtain ⟨htext, horig⟩ | ⟨_, hgiven⟩ := (h.sound key inst hfind).shows
  · have hheld := le_total Instance.held hfind
    rw [Instance.held] at hheld
    rw [Fold.held] at hbalance
    refine .inl ⟨?_, horig, htext⟩
    rw [htext]
    omega
  · exact .inr hgiven

/-- Whatever the events are, the counter never wraps and says what is held, up to the budget, and
texts are cut between characters. -/
theorem textBudget_holds (kHtmlEntities : List (String × String)) (options : ExtractOptions)
    (events : List Event) :
  (∃ fold, Fold.run kHtmlEntities options events = some fold ∧ fold.WithinBudget ∧
    ∃ finished, fold.finish kHtmlEntities = some finished ∧ finished.WithinBudget) ∧
  ∀ (room : ℕ) (text : String),
    takeBytes room (Utf8.encode text.toList) = Utf8.encode (boundedPrefix room text).toList
  := by
  obtain ⟨fold, hrun, hkept⟩ := Fold.kept_start.run kHtmlEntities events
  obtain ⟨finished, hfinish, hfinished⟩ := hkept.finish kHtmlEntities
  refine ⟨⟨fold, hrun, hkept.withinBudget, finished, hfinish, hfinished.withinBudget⟩, ?_⟩
  intro room text
  rw [takeBytes_encode, boundedPrefix, String.toList_ofList]

/-- An image with a description. -/
def image (description : String) : ElementMatched where
  ruleId := "images"
  tagName := "img"
  ns := .html
  attributes := [{ name := "alt", value := description }]
  matchOrdinal := 1

/-- A match without text is closed. -/
theorem Fold.closeInstance_fallback (kHtmlEntities : List (String × String)) {fold : Fold} {key : Key}
    {fallback : String} (hfind : fold.instances.find key = some { fallback := fallback })
    (h : fallback ≠ "") :
  ∃ fold', fold.closeInstance kHtmlEntities key = some fold' ∧
    fold'.instances.find key =
      some { fallback := fallback, text := fallback, orig := fallback, closed := true }
  := by
  have hflush : fold.flushInstanceText kHtmlEntities key = some fold := by
    rw [Fold.flushInstanceText, hfind, bind_some, if_pos rfl]
  rw [Fold.closeInstance, hfind, bind_some, if_neg Bool.false_ne_true, hflush,
    map_some]
  refine ⟨_, rfl, ?_⟩
  rw [Fold.modifyInstance, find_modify, if_pos rfl, hfind, map_some,
    if_pos ⟨rfl, h⟩]

/-- The item of an image shows its description. -/
theorem run_image (kHtmlEntities : List (String × String)) (options : ExtractOptions)
    {description : String} (h : description ≠ "") :
  ∃ fold inst, Fold.run kHtmlEntities options [.element (image description)] = some fold ∧
    fold.instances.find (key "images" 1) = some inst ∧ inst.text = description
  := by
  have hfallback : (image description).fallback = description := by
    have hfilter : (some description).filter (· ≠ "") = some description := by
      rw [filter_some, if_pos (by simpa using h)]
    have halt : (image description).attributeValue "alt" = some description := by
      simp [ElementMatched.attributeValue, image, Attribute.lowerName]
    rw [ElementMatched.fallback, findSome?_cons, halt, hfilter]
    rfl
  have hopens : (image description).opens = false := by
    simp [ElementMatched.opens, image]
  have hnew : key "images" 1 ∉ ({} : SortedMap Key Instance).keys := not_mem_nil
  let found : Fold :=
    { openByRule := update (fun _ => []) "images" []
      instances := emplace {} (key "images" 1) { fallback := description } }
  have hfind : found.instances.find (key "images" 1) = some { fallback := description } := by
    rw [find_emplace hnew, if_pos rfl]
  obtain ⟨fold, hclose, hfound⟩ := Fold.closeInstance_fallback kHtmlEntities hfind h
  refine ⟨fold, _, ?_, hfound, rfl⟩
  have hmissing : ¬ (Fold.instances {} |>.find (key (image description).ruleId
      (image description).matchOrdinal)).isSome := Bool.false_ne_true
  have helement : Fold.instanceElement kHtmlEntities {} (image description) = some fold := by
    rw [Fold.instanceElement, if_neg hmissing]
    simp only [hfallback, hopens]
    exact hclose
  have hstep : Fold.step kHtmlEntities options {} (.element (image description)) = some fold := by
    rw [Fold.step, Fold.element, if_pos (by simp [image]), helement]
  rw [Fold.run, foldlM_cons, hstep]
  rfl

/-- The item of an image shows the whole of its description, however long it is. -/
theorem fallback_exceeds :
  ∃ fold inst, Fold.run [] {}
      [.element (image (String.ofList (List.replicate 16777217 'a')))] = some fold ∧
    fold.instances.find (key "images" 1) = some inst ∧
    kBufferedTextBytes < inst.text.utf8ByteSize
  := by
  have hsize : ∀ count : ℕ, String.utf8Len (List.replicate count 'a') = count := by
    intro count
    induction count with
    | zero => rfl
    | succ count ih =>
      have hchar : ('a').utf8Size = 1 := rfl
      rw [List.replicate_succ, String.utf8Len_cons, ih, hchar]
  have hbytes : (String.ofList (List.replicate 16777217 'a')).utf8ByteSize = 16777217 := by
    rw [← String.utf8Len_toList, String.toList_ofList, hsize]
  have hne : String.ofList (List.replicate 16777217 'a') ≠ "" := by
    intro heq
    rw [heq] at hbytes
    exact absurd hbytes (by decide)
  obtain ⟨fold, inst, hrun, hfind, htext⟩ := run_image [] {} hne
  refine ⟨fold, inst, hrun, hfind, ?_⟩
  rw [htext, hbytes]
  decide

end GRParse.LolHtml.Budget
