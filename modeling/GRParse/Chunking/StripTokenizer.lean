import GRParse.Chunking.JsonCursor
import Mathlib.Data.List.Forall2

/-!
# Stripping a tokenizer file

`strip_hf_tokenizer_json` copies the members of an object but two.  What it accepts is an object
in the grammar of `JsonCursor` with nothing but white space around it, and what it returns are
the members it keeps, as they are written.  On a text of JSON these are the members of its tree.
-/

namespace GRParse.Chunking

open Json JsonCursor List

/-! ### The function -/

def kPadding : List UInt8 := [0x70, 0x61, 0x64, 0x64, 0x69, 0x6e, 0x67]

def kTruncation : List UInt8 :=
  [0x74, 0x72, 0x75, 0x6e, 0x63, 0x61, 0x74, 0x69, 0x6f, 0x6e]

/-- The message of the status that `invalid_tokenizer_json` returns. -/
def invalidTokenizerJson (path why : String) : String :=
  "tokenizer file '" ++ path ++ "' is not one well-formed JSON object: " ++ why

/-- Whether the member of a name is kept. -/
def keepsMember (key : List UInt8) : Bool :=
  key ≠ kPadding && key ≠ kTruncation

/-- The loop of `strip_hf_tokenizer_json`: the members kept and the text behind the object. -/
def keptMembers (path : String) : ℕ → JsonCursor →
    Except String (List (List UInt8) × JsonCursor)
  | 0, _ => .error (invalidTokenizerJson path "")
  | depth + 1, text =>
    let start := skipWs text
    match skipString start with
    | none => .error (invalidTokenizerJson path "bad member name")
    | some behindName =>
      match consume 0x3a behindName with
      | none => .error (invalidTokenizerJson path "missing ':'")
      | some rest =>
        match skipValue depth rest with
        | none => .error (invalidTokenizerJson path "bad member value")
        | some rest =>
          let key := start.tail.take (start.length - behindName.length - 2)
          let kept := if keepsMember key then [start.take (start.length - rest.length)] else []
          match consume 0x2c rest with
          | some rest =>
            (keptMembers path depth rest).map fun (others, rest) => (kept ++ others, rest)
          | none =>
            match consume 0x7d rest with
            | none => .error (invalidTokenizerJson path "missing ',' or '\x7d'")
            | some rest => .ok (kept, rest)

/-- The members kept of the object behind its brace, and the text behind it. -/
def topMembers (path : String) (depth : ℕ) (text : JsonCursor) :
    Except String (List (List UInt8) × JsonCursor) :=
  match consume 0x7d text with
  | some rest => .ok ([], rest)
  | none => keptMembers path depth text

/-- `strip_hf_tokenizer_json`, so many calls deep. -/
def stripWithin (depth : ℕ) (raw : List UInt8) (path : String) : Except String (List UInt8) :=
  match consume 0x7b raw with
  | none => .error (invalidTokenizerJson path "expected '\x7b'")
  | some rest =>
    match topMembers path depth rest with
    | .error message => .error message
    | .ok (kept, rest) =>
      if skipWs rest = [] then .ok (0x7b :: ([0x2c].intercalate kept ++ [0x7d]))
      else .error (invalidTokenizerJson path "trailing content after the object")

/-- `strip_hf_tokenizer_json`: the JSON it writes, or the message of its status. -/
def stripHfTokenizerJson (raw : List UInt8) (path : String) : Except String (List UInt8) :=
  stripWithin (2 * raw.length) raw path

/-! ### Members as written -/

/-- A member of an object as it is written, with the white space in it and around it. -/
structure WrittenMember where
  before : List UInt8
  name : List UInt8
  between : List UInt8
  colon : List UInt8
  value : List UInt8
  after : List UInt8

namespace WrittenMember

/-- The member from its name to the end of its value. -/
def text (member : WrittenMember) : List UInt8 :=
  0x22 :: (member.name ++ 0x22 :: (member.between ++ 0x3a :: (member.colon ++ member.value)))

/-- The member with the white space around it. -/
def padded (member : WrittenMember) : List UInt8 :=
  member.before ++ (member.text ++ member.after)

/-- A member in the grammar of the cursor. -/
structure Accepted (member : WrittenMember) : Prop where
  before : Blank member.before
  name : Closed member.name
  between : Blank member.between
  colon : Blank member.colon
  value : ValueText member.value
  after : Blank member.after

/-- A member that spells a name and a tree. -/
structure Spells (member : WrittenMember) (named : List UInt8 × Tree) : Prop where
  before : Blank member.before
  body : isBody named.1
  name : member.name = named.1
  between : Blank member.between
  colon : Blank member.colon
  value : named.2.Spells member.value
  after : Blank member.after

end WrittenMember

/-- Members with a comma between two of them. -/
def separated (members : List WrittenMember) : List UInt8 :=
  [0x2c].intercalate (members.map WrittenMember.padded)

/-- An object with the given members, and white space. -/
def ObjectText (members : List WrittenMember) (raw : List UInt8) : Prop :=
  ∃ before inside after, Blank before ∧ Blank inside ∧ Blank after ∧
    raw = before ++ 0x7b :: (inside ++ (separated members ++ 0x7d :: after))

/-- The texts of the members kept. -/
def keptTexts (members : List WrittenMember) : List (List UInt8) :=
  (members.filter fun member => keepsMember member.name).map WrittenMember.text

/-- The object that holds nothing but the members kept, as they are written. -/
def keptObject (members : List WrittenMember) : List UInt8 :=
  0x7b :: ([0x2c].intercalate (keptTexts members) ++ [0x7d])

/-! ### The loop -/

@[simp]
theorem separated_singleton (member : WrittenMember) :
  separated [member] = member.padded
  := by
  simp [separated]

@[simp]
theorem separated_cons_cons (member other : WrittenMember) (members : List WrittenMember) :
  separated (member :: other :: members) = member.padded ++ 0x2c :: separated (other :: members)
  := by
  simp [separated]

/-- What the loop keeps of a member. -/
def keptOf (member : WrittenMember) : List (List UInt8) :=
  if keepsMember member.name then [member.text] else []

theorem keptTexts_cons (member : WrittenMember) (members : List WrittenMember) :
  keptTexts (member :: members) = keptOf member ++ keptTexts members
  := by
  by_cases h : keepsMember member.name <;> simp [keptTexts, keptOf, h]

/-- A member is cut out of the text between its name and the end of its value. -/
theorem keptMembers_succ (path : String) {depth : ℕ} {member : WrittenMember}
    {tail : List UInt8} (hbefore : Blank member.before) (hname : Closed member.name)
    (hbetween : Blank member.between)
    (hskip : skipValue depth (member.colon ++ (member.value ++ tail)) = some tail) :
  keptMembers path (depth + 1) (member.before ++ (member.text ++ tail))
    = match consume 0x2c tail with
      | some rest =>
        (keptMembers path depth rest).map fun (others, rest) => (keptOf member ++ others, rest)
      | none =>
        match consume 0x7d tail with
        | none => .error (invalidTokenizerJson path "missing ',' or '\x7d'")
        | some rest => .ok (keptOf member, rest)
  := by
  have hstart : skipWs (member.before ++ (member.text ++ tail)) = member.text ++ tail := by
    rw [skipWs_append hbefore]
    apply skipWs_cons (by decide)
  have hstring : skipString (member.text ++ tail)
      = some (member.between ++ 0x3a :: (member.colon ++ (member.value ++ tail))) := by
    have h := @skipString_append [] _
      (member.between ++ 0x3a :: (member.colon ++ (member.value ++ tail))) rfl hname
    simpa [WrittenMember.text] using h
  have hkey : (member.text ++ tail).tail.take ((member.text ++ tail).length
      - (member.between ++ 0x3a :: (member.colon ++ (member.value ++ tail))).length - 2)
        = member.name := by
    have hlength : (member.text ++ tail).length
        - (member.between ++ 0x3a :: (member.colon ++ (member.value ++ tail))).length - 2
          = member.name.length := by
      simp only [WrittenMember.text, length_append, length_cons]
      omega
    rw [hlength, WrittenMember.text, cons_append, tail_cons, append_assoc]
    apply take_left
  have htext : (member.text ++ tail).take ((member.text ++ tail).length - tail.length)
      = member.text := by
    simp
  rw [keptMembers, hstart]
  simp only [hstring, consume_append hbetween (show Json.isSpace 0x3a = false by decide), hskip, hkey,
    htext]
  rfl

/-- The loop keeps the members to keep, up to the brace. -/
theorem keptMembers_append (path : String) {rest : List UInt8} :
    ∀ {members : List WrittenMember} {depth : ℕ}, members ≠ [] →
    (∀ member ∈ members, member.Accepted) → 2 * (separated members).length < depth →
  keptMembers path depth (separated members ++ 0x7d :: rest) = .ok (keptTexts members, rest)
  | [], _, hne, _, _ => absurd rfl hne
  | _, 0, _, _, hdepth => absurd hdepth (Nat.not_lt_zero _)
  | [member], depth + 1, _, haccepted, hdepth => by
    have h := haccepted member List.mem_cons_self
    have hends : Ends (member.after ++ 0x7d :: rest) := ends_append h.after (by decide)
    simp only [separated_singleton, WrittenMember.padded, WrittenMember.text, List.length_append,
      List.length_cons] at hdepth
    have hskip := skipValue_append h.value h.colon hends (show _ ≤ depth by omega)
    have hstep := keptMembers_succ path h.before h.name h.between hskip
    rw [consume_ne h.after (by decide) (by decide), consume_append h.after (by decide)] at hstep
    have hkept : keptTexts [member] = keptOf member := by
      rw [keptTexts_cons]
      apply List.append_nil
    simpa [WrittenMember.padded, hkept] using hstep
  | member :: other :: members, depth + 1, _, haccepted, hdepth => by
    have h := haccepted member List.mem_cons_self
    have hends : Ends (member.after ++ 0x2c :: (separated (other :: members) ++ 0x7d :: rest)) :=
      ends_append h.after (by decide)
    simp only [separated_cons_cons, WrittenMember.padded, WrittenMember.text, List.length_append,
      List.length_cons] at hdepth
    have hskip := skipValue_append h.value h.colon hends (show _ ≤ depth by omega)
    have hstep := keptMembers_succ path h.before h.name h.between hskip
    have ih := @keptMembers_append path rest (other :: members) depth (List.cons_ne_nil _ _)
      (fun member hmember => haccepted member (List.mem_cons_of_mem _ hmember)) (by omega)
    rw [consume_append h.after (by decide)] at hstep
    simp only [ih, Except.map, ← keptTexts_cons] at hstep
    simpa [WrittenMember.padded] using hstep

/-- A string at the start of what follows white space. -/
theorem of_skipString_skipWs {text rest : JsonCursor} (h : skipString (skipWs text) = some rest) :
  ∃ before body, Blank before ∧ Closed body ∧ text = before ++ 0x22 :: (body ++ 0x22 :: rest)
  := by
  obtain ⟨blank, hblank, htext⟩ := exists_blank text
  obtain ⟨before, body, hbefore, hbody, hskip⟩ := of_skipString h
  refine ⟨blank ++ before, body, ?_, hbody, ?_⟩
  · simpa [Blank, all_append] using And.intro hblank hbefore
  · rw [append_assoc, ← hskip]
    apply htext

/-- What the loop passes are members. -/
theorem of_keptMembers (path : String) {rest : List UInt8} : ∀ {depth : ℕ} {text : JsonCursor}
    {kept : List (List UInt8)}, keptMembers path depth text = .ok (kept, rest) →
  ∃ members : List WrittenMember, members ≠ [] ∧ (∀ member ∈ members, member.Accepted) ∧
    text = separated members ++ 0x7d :: rest ∧ kept = keptTexts members
  | 0, _, _, h => by
    cases h
  | depth + 1, text, kept, h => by
    have hloop := h
    rw [keptMembers] at h
    cases hstring : skipString (skipWs text) with
    | none => simp [hstring] at h
    | some behindName =>
      cases hsign : consume 0x3a behindName with
      | none => simp [hstring, hsign] at h
      | some behindColon =>
        cases hskip : skipValue depth behindColon with
        | none => simp [hstring, hsign, hskip] at h
        | some tail =>
          obtain ⟨before, name, hbefore, hname, rfl⟩ := of_skipString_skipWs hstring
          obtain ⟨between, hbetween, rfl⟩ := of_consume hsign
          obtain ⟨colon, value, hcolon, hvalue, rfl⟩ := of_skipValue hskip
          have hstep := @keptMembers_succ path depth ⟨before, name, between, colon, value, []⟩ tail
            hbefore hname hbetween hskip
          simp only [WrittenMember.text, List.cons_append, List.append_assoc] at hstep
          rw [hstep] at hloop
          cases hcomma : consume 0x2c tail with
          | some others =>
            obtain ⟨after, hafter, rfl⟩ := of_consume hcomma
            simp only [hcomma] at hloop
            cases hrest : keptMembers path depth others with
            | error message => simp [hrest, Except.map] at hloop
            | ok found =>
              obtain ⟨keptRest, behind⟩ := found
              simp only [hrest, Except.map, Except.ok.injEq, Prod.mk.injEq] at hloop
              obtain ⟨rfl, rfl⟩ := hloop
              obtain ⟨members, hne, haccepted, rfl, rfl⟩ := of_keptMembers path hrest
              obtain ⟨other, members, rfl⟩ := List.exists_cons_of_ne_nil hne
              refine ⟨⟨before, name, between, colon, value, after⟩ :: other :: members,
                List.cons_ne_nil _ _, ?_, ?_, ?_⟩
              · exact List.forall_mem_cons.mpr
                  ⟨⟨hbefore, hname, hbetween, hcolon, hvalue, hafter⟩, haccepted⟩
              · simp [WrittenMember.padded, WrittenMember.text]
              · exact (keptTexts_cons ⟨before, name, between, colon, value, after⟩ _).symm
          | none =>
            simp only [hcomma] at hloop
            cases hbrace : consume 0x7d tail with
            | none => simp [hbrace] at hloop
            | some behind =>
              obtain ⟨after, hafter, rfl⟩ := of_consume hbrace
              simp only [hbrace, Except.ok.injEq, Prod.mk.injEq] at hloop
              obtain ⟨rfl, rfl⟩ := hloop
              refine ⟨[⟨before, name, between, colon, value, after⟩], List.cons_ne_nil _ _, ?_, ?_, ?_⟩
              · exact List.forall_mem_singleton.mpr
                  ⟨hbefore, hname, hbetween, hcolon, hvalue, hafter⟩
              · simp [WrittenMember.padded, WrittenMember.text]
              · rw [keptTexts_cons]
                exact (List.append_nil _).symm

/-! ### The object -/

variable {members : List WrittenMember}

/-- Members begin with no brace. -/
theorem consume_brace_separated {inside rest : List UInt8} (hinside : Blank inside)
    (hne : members ≠ []) (haccepted : ∀ member ∈ members, member.Accepted) :
  consume 0x7d (inside ++ (separated members ++ rest)) = none
  := by
  obtain ⟨member, members, rfl⟩ := exists_cons_of_ne_nil hne
  have hbefore : Blank (inside ++ member.before) := by
    have h := (haccepted member mem_cons_self).before
    simpa [Blank, all_append] using And.intro hinside h
  cases members with
  | nil =>
    rw [separated_singleton, WrittenMember.padded]
    simp only [append_assoc]
    rw [← append_assoc]
    apply consume_ne hbefore (by decide) (by decide)
  | cons other members =>
    rw [separated_cons_cons, WrittenMember.padded]
    simp only [append_assoc]
    rw [← append_assoc]
    apply consume_ne hbefore (by decide) (by decide)

/-- White space before the first member is part of what stands before it. -/
theorem keptMembers_blank (path : String) {blank text : List UInt8} (h : Blank blank) (depth : ℕ) :
  keptMembers path depth (blank ++ text) = keptMembers path depth text
  := by
  cases depth with
  | zero => rfl
  | succ depth => rw [keptMembers, keptMembers, skipWs_append h]

/-- What the function does on an object in the grammar of the cursor. -/
theorem stripWithin_object (path : String) {raw : List UInt8} {depth : ℕ}
    (haccepted : ∀ member ∈ members, member.Accepted) (hraw : ObjectText members raw)
    (hdepth : 2 * raw.length ≤ depth) :
  stripWithin depth raw path = .ok (keptObject members)
  := by
  obtain ⟨before, inside, after, hbefore, hinside, hafter, rfl⟩ := hraw
  have hskip : skipWs after = [] := by
    simpa [skipWs, Blank] using hafter
  have htop : topMembers path depth (inside ++ (separated members ++ 0x7d :: after))
      = .ok (keptTexts members, after) := by
    rw [topMembers]
    by_cases hmembers : members = []
    · subst hmembers
      simp [separated, consume_append hinside, Json.isSpace, keptTexts]
    · simp only [length_append, length_cons] at hdepth
      rw [consume_brace_separated hinside hmembers haccepted]
      simp only [keptMembers_blank path hinside]
      apply keptMembers_append path hmembers haccepted (by omega)
  rw [stripWithin, consume_append hbefore (by decide)]
  simp only [htop, hskip, if_true]
  rfl

/-- What stands between the braces of an object are members, or white space. -/
theorem of_topMembers (path : String) {depth : ℕ} {text rest : JsonCursor}
    {kept : List (List UInt8)} (h : topMembers path depth text = .ok (kept, rest)) :
  ∃ inside, ∃ members : List WrittenMember, Blank inside ∧
    (∀ member ∈ members, member.Accepted) ∧
    text = inside ++ (separated members ++ 0x7d :: rest) ∧ kept = keptTexts members
  := by
  rw [topMembers] at h
  cases hclose : consume 0x7d text with
  | some behind =>
    obtain ⟨inside, hinside, rfl⟩ := of_consume hclose
    simp only [hclose, Except.ok.injEq, Prod.mk.injEq] at h
    obtain ⟨rfl, rfl⟩ := h
    exact ⟨inside, [], hinside, by simp, by simp [separated], rfl⟩
  | none =>
    simp only [hclose] at h
    obtain ⟨members, -, haccepted, htext, hkept⟩ := of_keptMembers path h
    exact ⟨[], members, rfl, haccepted, htext, hkept⟩

/-- The function succeeds on the objects in the grammar of the cursor, and on these alone. -/
theorem stripHfTokenizerJson_eq_ok_iff (path : String) (raw out : List UInt8) :
  stripHfTokenizerJson raw path = .ok out
    ↔ ∃ members : List WrittenMember, (∀ member ∈ members, member.Accepted) ∧
      ObjectText members raw ∧ out = keptObject members
  := by
  constructor
  · intro h
    rw [stripHfTokenizerJson, stripWithin] at h
    cases hopen : consume 0x7b raw with
    | none => simp [hopen] at h
    | some rest =>
      obtain ⟨before, hbefore, rfl⟩ := of_consume hopen
      simp only [hopen] at h
      cases htop : topMembers path (2 * (before ++ 0x7b :: rest).length) rest with
      | error message => simp only [htop, reduceCtorEq] at h
      | ok found =>
        obtain ⟨kept, after⟩ := found
        obtain ⟨inside, members, hinside, haccepted, rfl, rfl⟩ := of_topMembers path htop
        simp only [htop] at h
        split at h
        case isFalse => cases h
        case isTrue hskip =>
          obtain rfl := Except.ok.inj h
          obtain ⟨blank, hblank, hafter⟩ := exists_blank after
          rw [hskip, append_nil] at hafter
          subst hafter
          exact ⟨members, haccepted, ⟨before, inside, after, hbefore, hinside, hblank, rfl⟩, rfl⟩
  · rintro ⟨members, haccepted, hraw, rfl⟩
    apply stripWithin_object path haccepted hraw le_rfl

/-! ### Depth -/

/-! ### Texts of JSON -/

/-- A body that is scanned to its end is closed. -/
theorem closed_of_scanBody : ∀ {body : List UInt8}, scanBody (body ++ [0x22]) = some (body, []) →
  Closed body
  | [], _ => trivial
  | byte :: body, h => by
    rw [Closed.eq_def]
    by_cases hquote : byte = 0x22
    · subst hquote
      simp at h
    by_cases hescape : byte = 0x5c
    · subst hescape
      cases body with
      | nil => simp [scanBody] at h
      | cons escaped body =>
        have htail : scanBody (body ++ [0x22]) = some (body, []) := by simpa using h
        simpa using closed_of_scanBody htail
    · have htail : scanBody (body ++ [0x22]) = some (body, []) := by
        simpa [scanBody_plain hquote hescape] using h
      simpa [hquote, hescape] using closed_of_scanBody htail

theorem closed_of_isBody {body : List UInt8} (h : isBody body) :
  Closed body
  := closed_of_scanBody (scanBody_append h)

theorem isRun_of_isToken {token : List UInt8} (h : isToken token) :
  IsRun token
  := by
  obtain ⟨byte, rest, htoken, hquote, hbracket, hbrace⟩ := isToken_head h
  constructor
  case nonempty =>
    rw [htoken]
    apply cons_ne_nil
  case within =>
    intro byte hbyte
    rw [endsRun_eq]
    apply endsScalar_of_isToken h hbyte
  case starts =>
    intro first hfirst
    rw [htoken] at hfirst
    obtain rfl := Option.mem_some_iff.mp hfirst
    exact ⟨hquote, hbracket, hbrace⟩

mutual

/-- The text of a value of JSON is one that the cursor takes for a value. -/
theorem valueText_of_spells : ∀ (tree : Tree) {text : List UInt8}, tree.Spells text →
  ValueText text
  | .scalar token, text, h => by
    obtain ⟨htoken, rfl⟩ := h
    apply ValueText.run (isRun_of_isToken htoken)
  | .string body, text, h => by
    obtain ⟨hbody, rfl⟩ := h
    apply ValueText.string (closed_of_isBody hbody)
  | .array [], text, h => by
    obtain ⟨inside, hinside, rfl⟩ := h
    apply ValueText.emptyArray hinside
  | .array (element :: elements), text, h => by
    obtain ⟨inside, hinside, rfl⟩ := h
    apply ValueText.array (elementsText_of_spells _ (List.cons_ne_nil _ _) hinside)
  | .object [], text, h => by
    obtain ⟨inside, hinside, rfl⟩ := h
    apply ValueText.emptyObject hinside
  | .object (member :: members), text, h => by
    obtain ⟨inside, hinside, rfl⟩ := h
    apply ValueText.object (membersText_of_spells _ (List.cons_ne_nil _ _) hinside)

theorem elementsText_of_spells : ∀ (elements : List Tree) {inside : List UInt8}, elements ≠ [] →
    SpellsElements elements inside →
  ElementsText inside
  | [], _, hne, _ => absurd rfl hne
  | element :: elements, inside, _, h => by
    obtain ⟨before, text, after, hbefore, htext, hafter, hinside⟩ := h
    have hvalue := valueText_of_spells element htext
    split at hinside
    case isTrue =>
      subst hinside
      apply ElementsText.last hbefore hvalue hafter
    case isFalse hne =>
      obtain ⟨rest, hrest, rfl⟩ := hinside
      apply ElementsText.cons hbefore hvalue hafter (elementsText_of_spells elements hne hrest)

theorem membersText_of_spells : ∀ (members : List (List UInt8 × Tree)) {inside : List UInt8},
    members ≠ [] → SpellsMembers members inside →
  MembersText inside
  | [], _, hne, _ => absurd rfl hne
  | (key, member) :: members, inside, _, h => by
    obtain ⟨before, between, colon, text, after, hbefore, hkey, hbetween, hcolon, htext, hafter,
      hinside⟩ := h
    have hname := closed_of_isBody hkey
    have hvalue := valueText_of_spells member htext
    split at hinside
    case isTrue =>
      subst hinside
      apply MembersText.last hbefore hname hbetween hcolon hvalue hafter
    case isFalse hne =>
      obtain ⟨rest, hrest, rfl⟩ := hinside
      apply MembersText.cons hbefore hname hbetween hcolon hvalue hafter
        (membersText_of_spells members hne hrest)

end

theorem WrittenMember.Spells.accepted {member : WrittenMember} {named : List UInt8 × Tree}
    (h : member.Spells named) :
  member.Accepted
  := by
  constructor
  case before => exact h.before
  case name =>
    rw [h.name]
    apply closed_of_isBody h.body
  case between => exact h.between
  case colon => exact h.colon
  case value => exact valueText_of_spells _ h.value
  case after => exact h.after

variable {named : List (List UInt8 × Tree)}

theorem accepted_of_spells (h : List.Forall₂ WrittenMember.Spells members named) :
  ∀ member ∈ members, member.Accepted
  := by
  induction h with
  | nil => simp
  | cons hmember _ ih => exact forall_mem_cons.mpr ⟨hmember.accepted, ih⟩

/-- What spells members is made of written members. -/
theorem exists_written : ∀ {named : List (List UInt8 × Tree)} {inside : List UInt8}, named ≠ [] →
    SpellsMembers named inside →
  ∃ members : List WrittenMember, List.Forall₂ WrittenMember.Spells members named ∧
    inside = separated members
  | [], _, hne, _ => absurd rfl hne
  | (key, tree) :: named, inside, _, h => by
    obtain ⟨before, between, colon, text, after, hbefore, hkey, hbetween, hcolon, htext, hafter,
      hinside⟩ := h
    have hmember : WrittenMember.Spells ⟨before, key, between, colon, text, after⟩ (key, tree) :=
      ⟨hbefore, hkey, rfl, hbetween, hcolon, htext, hafter⟩
    split at hinside
    case isTrue hnil =>
      subst hnil hinside
      refine ⟨[⟨before, key, between, colon, text, after⟩], .cons hmember .nil, ?_⟩
      simp [WrittenMember.padded, WrittenMember.text]
    case isFalse hne =>
      obtain ⟨rest, hrest, rfl⟩ := hinside
      obtain ⟨members, hmembers, rfl⟩ := exists_written hne hrest
      cases hmembers with
      | nil => exact absurd rfl hne
      | cons hother hmembers =>
        refine ⟨_, .cons hmember (.cons hother hmembers), ?_⟩
        simp [WrittenMember.padded, WrittenMember.text]

/-- An object that a text spells is made of written members. -/
theorem exists_objectText {raw : List UInt8} (h : Spelled (.object named) raw) :
  ∃ members : List WrittenMember, List.Forall₂ WrittenMember.Spells members named ∧
    ObjectText members raw
  := by
  obtain ⟨before, _, after, hbefore, ⟨inside, hinside, rfl⟩, hafter, rfl⟩ := h
  by_cases hne : named = []
  · subst hne
    refine ⟨[], .nil, before, inside, after, hbefore, hinside, hafter, ?_⟩
    simp [separated]
  · obtain ⟨members, hmembers, rfl⟩ := exists_written hne hinside
    refine ⟨members, hmembers, before, [], after, hbefore, rfl, hafter, ?_⟩
    simp

/-- Members that spell trees, joined with nothing but commas, spell an object. -/
theorem spellsMembers_texts (h : List.Forall₂ WrittenMember.Spells members named) :
  SpellsMembers named ([0x2c].intercalate (members.map WrittenMember.text))
  := by
  induction h with
  | nil => exact all_nil
  | @cons member named members others hmember hmembers ih =>
    obtain ⟨key, tree⟩ := named
    refine ⟨[], member.between, member.colon, member.value, [], rfl, hmember.body,
      hmember.between, hmember.colon, hmember.value, rfl, ?_⟩
    obtain rfl : member.name = key := hmember.name
    cases hmembers with
    | nil => simp [WrittenMember.text]
    | cons hother hmembers =>
      refine if_neg (cons_ne_nil _ _) ▸ ⟨_, ih, ?_⟩
      simp [WrittenMember.text]

theorem forall₂_filter (h : List.Forall₂ WrittenMember.Spells members named) :
  List.Forall₂ WrittenMember.Spells (members.filter fun member => keepsMember member.name)
    (named.filter fun named => keepsMember named.1)
  := by
  induction h with
  | nil => exact .nil
  | cons hmember hmembers ih =>
    simp only [filter_cons, hmember.name]
    split
    case isTrue => exact .cons hmember ih
    case isFalse => exact ih

/-- What is kept of an object of JSON is one with the members kept. -/
theorem keptObject_spelled (h : List.Forall₂ WrittenMember.Spells members named) :
  Spelled (.object (named.filter fun named => keepsMember named.1)) (keptObject members)
  := by
  refine ⟨[], keptObject members, [], rfl, ⟨_, spellsMembers_texts (forall₂_filter h), rfl⟩, rfl, ?_⟩
  simp

/-- On the text of an object of JSON the result is the object of the members kept, as they are
written.  Where the function succeeds at all the text is an object of members that are set apart
by commas, up to what runs of bytes pass for primitives. -/
theorem stripHfTokenizerJson_edits (path : String) (raw : List UInt8) :
  (∀ named : List (List UInt8 × Tree), Spelled (.object named) raw →
    ∃ members : List WrittenMember, List.Forall₂ WrittenMember.Spells members named ∧
      ObjectText members raw ∧
      stripHfTokenizerJson raw path = .ok (keptObject members) ∧
      Spelled (.object (named.filter fun named => keepsMember named.1)) (keptObject members)) ∧
  (∀ out, stripHfTokenizerJson raw path = .ok out →
    ∃ members : List WrittenMember, (∀ member ∈ members, member.Accepted) ∧
      ObjectText members raw ∧ out = keptObject members)
  := by
  constructor
  · intro named h
    obtain ⟨members, hmembers, hraw⟩ := exists_objectText h
    refine ⟨members, hmembers, hraw, ?_, keptObject_spelled hmembers⟩
    apply (stripHfTokenizerJson_eq_ok_iff path raw _).mpr
    exact ⟨members, accepted_of_spells hmembers, hraw, rfl⟩
  · intro out h
    exact (stripHfTokenizerJson_eq_ok_iff path raw out).mp h

/-- A value whose bracket is not closed. -/
def openBracket : List UInt8 := [0x7b, 0x22, 0x61, 0x22, 0x3a, 0x78, 0x5b, 0x7d]

/-- A value whose quotation mark is not closed. -/
def openQuote : List UInt8 := [0x7b, 0x22, 0x61, 0x22, 0x3a, 0x78, 0x22, 0x7d]

/-- Two members without a comma between them. -/
def missingComma : List UInt8 :=
  [0x7b, 0x22, 0x61, 0x22, 0x3a, 0x31, 0x22, 0x62, 0x22, 0x3a, 0x32, 0x7d]

/-- A run hides what is in it: a bracket or a quotation mark that is not closed, and that a comma
is missing. -/
theorem stripHfTokenizerJson_hides :
  (stripHfTokenizerJson openBracket "" = .ok openBracket ∧ openBracket.count 0x5b = 1 ∧
    openBracket.count 0x5d = 0) ∧
  (stripHfTokenizerJson openQuote "" = .ok openQuote ∧ openQuote.count 0x22 = 3) ∧
  stripHfTokenizerJson missingComma "" = .ok missingComma ∧ missingComma.count 0x3a = 2 ∧
    missingComma.count 0x2c = 0
  := by
  refine ⟨⟨rfl, ?_, ?_⟩, ⟨rfl, ?_⟩, rfl, ?_, ?_⟩
  all_goals decide

end GRParse.Chunking
