import GRParse.Lib.JsonText
import Mathlib.Data.List.Basic

/-!
# The JSON reader of a tokenizer file

`JsonCursor` finds where the values of a text end and judges little else.  A string is what
stands between two quotation marks that are not escaped, and a primitive is a run of bytes up to
white space, a comma or a closing bracket.  The texts that it takes for values are those of a
grammar, and it takes each of them whole.  All texts of JSON are among them.
-/

namespace GRParse.Chunking

open Json List

/-! ### The cursor -/

/-- Whether a byte ends a run. -/
def endsRun (byte : UInt8) : Bool :=
  byte ∈ [0x20, 0x09, 0x0d, 0x0a, 0x2c, 0x5d, 0x7d]

/-- A cursor is the text from its position on.  Where one of its operations fails it has passed
white space at most, and what is tried next passes white space first. -/
abbrev JsonCursor := List UInt8

namespace JsonCursor

/-- `skip_ws`. -/
def skipWs (text : JsonCursor) : JsonCursor :=
  text.dropWhile Json.isSpace

def consume (expected : UInt8) (text : JsonCursor) : Option JsonCursor :=
  if (skipWs text).head? = some expected then some (skipWs text).tail else none

/-- The loop of `skip_string`, behind the first quotation mark. -/
def skipBody : JsonCursor → Option JsonCursor
  | [] => none
  | byte :: rest =>
    if byte = 0x22 then some rest
    else if byte = 0x5c then
      match rest with
      | [] => none
      | _ :: rest => skipBody rest
    else skipBody rest

def skipString (text : JsonCursor) : Option JsonCursor :=
  (consume 0x22 text).bind skipBody

/-- The primitive that a text begins with. -/
def skipRun (text : JsonCursor) : Option JsonCursor :=
  if text.takeWhile (!endsRun ·) = [] then none else some (text.dropWhile (!endsRun ·))

mutual

/-- `skip_value`, so many calls deep. -/
def skipValue : ℕ → JsonCursor → Option JsonCursor
  | 0, _ => none
  | depth + 1, text =>
    match skipWs text with
    | [] => none
    | byte :: rest =>
      if byte = 0x22 then skipString (byte :: rest)
      else if byte = 0x7b then
        match consume 0x7d rest with
        | some rest => some rest
        | none => skipMembers depth rest
      else if byte = 0x5b then
        match consume 0x5d rest with
        | some rest => some rest
        | none => skipElements depth rest
      else skipRun (byte :: rest)

/-- The loop of `skip_value` on an object. -/
def skipMembers : ℕ → JsonCursor → Option JsonCursor
  | 0, _ => none
  | depth + 1, text =>
    (skipString text).bind fun rest =>
    (consume 0x3a rest).bind fun rest =>
    (skipValue depth rest).bind fun rest =>
    match consume 0x2c rest with
    | some rest => skipMembers depth rest
    | none => consume 0x7d rest

/-- The loop of `skip_value` on an array. -/
def skipElements : ℕ → JsonCursor → Option JsonCursor
  | 0, _ => none
  | depth + 1, text =>
    (skipValue depth text).bind fun rest =>
    match consume 0x2c rest with
    | some rest => skipElements depth rest
    | none => consume 0x5d rest

end

end JsonCursor

/-! ### What it takes for a value -/

/-- The bodies of strings: no quotation mark but behind a backslash, and a byte behind each
backslash. -/
def Closed : List UInt8 → Prop
  | [] => True
  | byte :: rest =>
    if byte = 0x22 then False
    else if byte = 0x5c then
      match rest with
      | [] => False
      | _ :: rest => Closed rest
    else Closed rest

/-- A run of bytes that stands for a primitive. -/
structure IsRun (text : List UInt8) : Prop where
  nonempty : text ≠ []
  within : ∀ byte ∈ text, endsRun byte = false
  starts : ∀ byte ∈ text.head?, byte ≠ 0x22 ∧ byte ≠ 0x5b ∧ byte ≠ 0x7b

mutual

/-- The texts of values: strings that are closed, objects and arrays whose brackets match and
whose members are set apart by one comma each, and runs. -/
inductive ValueText : List UInt8 → Prop
  | string {body : List UInt8} (closed : Closed body) : ValueText (0x22 :: (body ++ [0x22]))
  | emptyObject {inside : List UInt8} (blank : Blank inside) :
    ValueText (0x7b :: (inside ++ [0x7d]))
  | object {inside : List UInt8} (members : MembersText inside) :
    ValueText (0x7b :: (inside ++ [0x7d]))
  | emptyArray {inside : List UInt8} (blank : Blank inside) :
    ValueText (0x5b :: (inside ++ [0x5d]))
  | array {inside : List UInt8} (elements : ElementsText inside) :
    ValueText (0x5b :: (inside ++ [0x5d]))
  | run {text : List UInt8} (run : IsRun text) : ValueText text

/-- The texts of members: a name, a colon and a value each. -/
inductive MembersText : List UInt8 → Prop
  | last {before name between colon value after : List UInt8} (hbefore : Blank before)
    (hname : Closed name) (hbetween : Blank between) (hcolon : Blank colon)
    (hvalue : ValueText value) (hafter : Blank after) :
    MembersText (before ++ 0x22 :: (name ++ 0x22 :: (between ++ 0x3a :: (colon ++
      (value ++ after)))))
  | cons {before name between colon value after rest : List UInt8} (hbefore : Blank before)
    (hname : Closed name) (hbetween : Blank between) (hcolon : Blank colon)
    (hvalue : ValueText value) (hafter : Blank after) (hrest : MembersText rest) :
    MembersText (before ++ 0x22 :: (name ++ 0x22 :: (between ++ 0x3a :: (colon ++
      (value ++ (after ++ 0x2c :: rest))))))

/-- The texts of elements. -/
inductive ElementsText : List UInt8 → Prop
  | last {before value after : List UInt8} (hbefore : Blank before) (hvalue : ValueText value)
    (hafter : Blank after) : ElementsText (before ++ (value ++ after))
  | cons {before value after rest : List UInt8} (hbefore : Blank before)
    (hvalue : ValueText value) (hafter : Blank after) (hrest : ElementsText rest) :
    ElementsText (before ++ (value ++ (after ++ 0x2c :: rest)))

end

theorem endsRun_eq (byte : UInt8) :
  endsRun byte = endsScalar byte
  := by
  simp only [endsRun, endsScalar, Json.isSpace, mem_cons, not_mem_nil, or_false,
    Bool.decide_or]
  grind

theorem isSpace_of_endsRun {byte : UInt8} (h : endsRun byte = false) :
  Json.isSpace byte = false
  := by
  rw [endsRun_eq] at h
  simp only [endsScalar, Bool.or_eq_false_iff] at h
  apply h.2

/-- A value begins with neither white space nor a closing bracket. -/
theorem ValueText.head {text : List UInt8} (h : ValueText text) :
  ∃ byte rest, text = byte :: rest ∧ Json.isSpace byte = false ∧ byte ≠ 0x5d ∧ byte ≠ 0x7d
  := by
  cases h with
  | run run =>
    obtain ⟨byte, rest, rfl⟩ := exists_cons_of_ne_nil run.nonempty
    have hends := run.within byte mem_cons_self
    refine ⟨byte, rest, rfl, isSpace_of_endsRun hends, ?_, ?_⟩
    all_goals
      rintro rfl
      exact absurd hends (by decide)
  | _ => exact ⟨_, _, rfl, by decide, by decide, by decide⟩

namespace JsonCursor

/-! ### Lexemes -/

theorem skipWs_append {blank text : List UInt8} (h : Blank blank) :
  skipWs (blank ++ text) = skipWs text
  := skipSpace_append h

theorem skipWs_cons {byte : UInt8} {text : List UInt8} (h : Json.isSpace byte = false) :
  skipWs (byte :: text) = byte :: text
  := skipSpace_cons h

/-- What is passed is blank. -/
theorem exists_blank (text : JsonCursor) :
  ∃ blank, Blank blank ∧ text = blank ++ skipWs text
  := by
  refine ⟨text.takeWhile Json.isSpace, ?_, takeWhile_append_dropWhile.symm⟩
  apply all_eq_true.mpr
  intro byte hbyte
  apply mem_takeWhile_imp hbyte

theorem consume_append {blank rest : List UInt8} {expected : UInt8} (hblank : Blank blank)
    (hexpected : Json.isSpace expected = false) :
  consume expected (blank ++ expected :: rest) = some rest
  := by
  simp [consume, skipWs_append hblank, skipWs_cons hexpected]

theorem consume_ne {blank rest : List UInt8} {expected byte : UInt8} (hblank : Blank blank)
    (hbyte : Json.isSpace byte = false) (hne : byte ≠ expected) :
  consume expected (blank ++ byte :: rest) = none
  := by
  simp [consume, skipWs_append hblank, skipWs_cons hbyte, hne]

variable {text rest : JsonCursor}

/-- A byte that is consumed stands behind white space. -/
theorem of_consume {expected : UInt8} (h : consume expected text = some rest) :
  ∃ blank, Blank blank ∧ text = blank ++ expected :: rest
  := by
  obtain ⟨blank, hblank, htext⟩ := exists_blank text
  unfold consume at h
  split at h
  case isFalse => cases h
  case isTrue hhead =>
    obtain rfl := Option.some.inj h
    refine ⟨blank, hblank, ?_⟩
    rw [cons_head?_tail hhead]
    apply htext

/-- A closed body is passed up to the quotation mark behind it. -/
theorem skipBody_append : ∀ {body : List UInt8} (rest : List UInt8), Closed body →
  skipBody (body ++ 0x22 :: rest) = some rest
  | [], rest, _ => by
    cases rest <;> simp [skipBody]
  | byte :: body, rest, h => by
    rw [Closed.eq_def] at h
    by_cases hquote : byte = 0x22
    · simp [hquote] at h
    · by_cases hescape : byte = 0x5c
      · cases body with
        | nil => simp [hescape] at h
        | cons escaped body =>
          have hbody : Closed body := by simpa [hescape] using h
          simpa [skipBody, hescape] using skipBody_append rest hbody
      · have hbody : Closed body := by simpa [hquote, hescape] using h
        have ih := skipBody_append rest hbody
        rw [List.cons_append, skipBody.eq_def]
        simpa [hquote, hescape] using ih

theorem of_skipBody : ∀ {text rest : List UInt8}, skipBody text = some rest →
  ∃ body, Closed body ∧ text = body ++ 0x22 :: rest
  | [], _, h => by
    simp [skipBody] at h
  | byte :: text, rest, h => by
    rw [skipBody.eq_def] at h
    by_cases hquote : byte = 0x22
    · obtain rfl : text = rest := by simpa [hquote] using h
      exact ⟨[], trivial, by rw [hquote]; rfl⟩
    · by_cases hescape : byte = 0x5c
      · cases text with
        | nil => simp [hescape] at h
        | cons escaped text =>
          have htail : skipBody text = some rest := by simpa [hescape] using h
          obtain ⟨body, hbody, rfl⟩ := of_skipBody htail
          refine ⟨byte :: escaped :: body, ?_, rfl⟩
          simpa [Closed, hescape] using hbody
      · have htail : skipBody text = some rest := by simpa [hquote, hescape] using h
        obtain ⟨body, hbody, rfl⟩ := of_skipBody htail
        refine ⟨byte :: body, ?_, rfl⟩
        rw [Closed.eq_def]
        simpa [hquote, hescape] using hbody

theorem skipString_append {before body : List UInt8} (rest : List UInt8) (hbefore : Blank before)
    (hbody : Closed body) :
  skipString (before ++ 0x22 :: (body ++ 0x22 :: rest)) = some rest
  := by
  rw [skipString, consume_append hbefore (by decide)]
  apply skipBody_append rest hbody

theorem of_skipString (h : skipString text = some rest) :
  ∃ before body, Blank before ∧ Closed body ∧ text = before ++ 0x22 :: (body ++ 0x22 :: rest)
  := by
  obtain ⟨inside, hinside, hrest⟩ := Option.bind_eq_some_iff.mp h
  obtain ⟨before, hbefore, rfl⟩ := of_consume hinside
  obtain ⟨body, hbody, rfl⟩ := of_skipBody hrest
  exact ⟨before, body, hbefore, hbody, rfl⟩

/-- A run is passed up to what ends it. -/
theorem skipRun_append {text rest : List UInt8} (h : IsRun text) (hrest : Ends rest) :
  skipRun (text ++ rest) = some rest
  := by
  have hwithin : ∀ byte ∈ text, !endsRun byte := by
    intro byte hbyte
    rw [h.within byte hbyte]
    rfl
  have hdrop : (text ++ rest).dropWhile (!endsRun ·) = rest := by
    rw [dropWhile_append_of_pos hwithin]
    cases rest with
    | nil => rfl
    | cons byte rest =>
      have hbyte : endsRun byte := by rw [endsRun_eq]; exact hrest byte rfl
      simp [hbyte]
  have htake : (text ++ rest).takeWhile (!endsRun ·) ≠ [] := by
    rw [takeWhile_append_of_pos hwithin]
    exact append_ne_nil_of_left_ne_nil h.nonempty _
  rw [skipRun, if_neg htake, hdrop]

/-- What is passed as a run is one, where no other value begins. -/
theorem of_skipRun (h : skipRun text = some rest)
    (hstarts : ∀ byte ∈ text.head?, byte ≠ 0x22 ∧ byte ≠ 0x5b ∧ byte ≠ 0x7b) :
  ∃ run, IsRun run ∧ text = run ++ rest
  := by
  unfold skipRun at h
  split at h
  case isTrue => cases h
  case isFalse hne =>
    obtain rfl := Option.some.inj h
    refine ⟨text.takeWhile (!endsRun ·), ⟨hne, ?_, ?_⟩, takeWhile_append_dropWhile.symm⟩
    · intro byte hbyte
      simpa using mem_takeWhile_imp hbyte
    · intro byte hbyte
      apply hstarts byte
      cases text with
      | nil => exact absurd rfl hne
      | cons first text =>
        rw [takeWhile_cons] at hbyte hne
        split at hbyte
        case isTrue => exact hbyte
        case isFalse => cases hbyte

/-! ### Values -/

/-- A brace does not stand where members begin. -/
theorem consume_brace_members {inside rest : List UInt8} (h : MembersText inside) :
  consume 0x7d (inside ++ rest) = none
  := by
  cases h with
  | last hbefore =>
    rw [append_assoc]
    apply consume_ne hbefore (by decide) (by decide)
  | cons hbefore =>
    rw [append_assoc]
    apply consume_ne hbefore (by decide) (by decide)

theorem consume_bracket_elements {inside rest : List UInt8} (h : ElementsText inside) :
  consume 0x5d (inside ++ rest) = none
  := by
  cases h with
  | last hbefore hvalue =>
    obtain ⟨byte, tail, rfl, hspace, hbracket, -⟩ := hvalue.head
    rw [append_assoc]
    apply consume_ne hbefore hspace hbracket
  | cons hbefore hvalue =>
    obtain ⟨byte, tail, rfl, hspace, hbracket, -⟩ := hvalue.head
    rw [append_assoc]
    apply consume_ne hbefore hspace hbracket

/-- A value is found behind the white space before it. -/
theorem skipWs_value {before value rest : List UInt8} (hbefore : Blank before)
    (h : ValueText value) :
  skipWs (before ++ (value ++ rest)) = value ++ rest
  := by
  obtain ⟨byte, tail, rfl, hspace, -⟩ := h.head
  rw [skipWs_append hbefore, cons_append, skipWs_cons hspace]

mutual

/-- A value is passed whole, up to what ends it. -/
theorem skipValue_append : ∀ {value : List UInt8}, ValueText value →
    ∀ {before rest : List UInt8} {depth : ℕ}, Blank before → Ends rest →
    2 * value.length ≤ depth →
  skipValue depth (before ++ (value ++ rest)) = some rest
  | value, h, before, rest, 0, _, _, hdepth => by
    obtain ⟨byte, tail, rfl, -⟩ := h.head
    simp at hdepth
  | _, .string closed, before, rest, depth + 1, hbefore, _, _ => by
    have hskip := @skipWs_value _ _ rest hbefore (.string closed)
    have hstring := @skipString_append [] _ rest rfl closed
    simp only [List.cons_append, List.append_assoc, List.nil_append] at hskip hstring
    simp [skipValue, hskip, hstring]
  | _, .emptyObject blank, before, rest, depth + 1, hbefore, _, _ => by
    have hskip := @skipWs_value _ _ rest hbefore (.emptyObject blank)
    have hclose := @consume_append _ rest 0x7d blank (by decide)
    simp only [List.cons_append, List.append_assoc, List.nil_append] at hskip
    simp [skipValue, hskip, hclose]
  | _, .object members, before, rest, depth + 1, hbefore, _, hdepth => by
    have hskip := @skipWs_value _ _ rest hbefore (.object members)
    have hopen := @consume_brace_members _ (0x7d :: rest) members
    have hmembers := @skipMembers_append _ members rest depth (by simp at hdepth; omega)
    simp only [List.cons_append, List.append_assoc, List.nil_append] at hskip
    simp [skipValue, hskip, hopen, hmembers]
  | _, .emptyArray blank, before, rest, depth + 1, hbefore, _, _ => by
    have hskip := @skipWs_value _ _ rest hbefore (.emptyArray blank)
    have hclose := @consume_append _ rest 0x5d blank (by decide)
    simp only [List.cons_append, List.append_assoc, List.nil_append] at hskip
    simp [skipValue, hskip, hclose]
  | _, .array elements, before, rest, depth + 1, hbefore, _, hdepth => by
    have hskip := @skipWs_value _ _ rest hbefore (.array elements)
    have hopen := @consume_bracket_elements _ (0x5d :: rest) elements
    have helements := @skipElements_append _ elements rest depth (by simp at hdepth; omega)
    simp only [List.cons_append, List.append_assoc, List.nil_append] at hskip
    simp [skipValue, hskip, hopen, helements]
  | _, .run run, before, rest, depth + 1, hbefore, hrest, _ => by
    have hskip := @skipWs_value _ _ rest hbefore (.run run)
    have hrun := skipRun_append run hrest
    obtain ⟨byte, tail, rfl⟩ := List.exists_cons_of_ne_nil run.nonempty
    obtain ⟨hquote, hbracket, hbrace⟩ := run.starts byte rfl
    simp only [List.cons_append] at hskip hrun
    simp [skipValue, hskip, hquote, hbracket, hbrace, hrun]

theorem skipMembers_append : ∀ {inside : List UInt8}, MembersText inside →
    ∀ {rest : List UInt8} {depth : ℕ}, 2 * inside.length < depth →
  skipMembers depth (inside ++ 0x7d :: rest) = some rest
  | _, _, rest, 0, hdepth => absurd hdepth (Nat.not_lt_zero _)
  | _, .last hbefore hname hbetween hcolon hvalue hafter, rest, depth + 1, hdepth => by
    simp only [List.length_append, List.length_cons] at hdepth
    have hends : Ends (_ ++ 0x7d :: rest) := ends_append hafter (by decide)
    have hskip := skipValue_append hvalue hcolon hends (show _ ≤ depth by omega)
    have hcomma := @consume_ne _ rest 0x2c 0x7d hafter (by decide) (by decide)
    have hclose := @consume_append _ rest 0x7d hafter (by decide)
    simp only [List.append_assoc, List.cons_append]
    simp [skipMembers, skipString_append _ hbefore hname, consume_append hbetween, Json.isSpace, hskip,
      hcomma, hclose]
  | _, @MembersText.cons _ _ _ _ _ _ others hbefore hname hbetween hcolon hvalue hafter hrest, rest,
      depth + 1, hdepth => by
    simp only [List.length_append, List.length_cons] at hdepth
    have hends : Ends (_ ++ 0x2c :: (others ++ 0x7d :: rest)) := ends_append hafter (by decide)
    have hskip := skipValue_append hvalue hcolon hends (show _ ≤ depth by omega)
    have hcomma := @consume_append _ (others ++ 0x7d :: rest) 0x2c hafter (by decide)
    have ih := @skipMembers_append _ hrest rest depth (by omega)
    simp only [List.append_assoc, List.cons_append]
    simp [skipMembers, skipString_append _ hbefore hname, consume_append hbetween, Json.isSpace, hskip,
      hcomma, ih]

theorem skipElements_append : ∀ {inside : List UInt8}, ElementsText inside →
    ∀ {rest : List UInt8} {depth : ℕ}, 2 * inside.length < depth →
  skipElements depth (inside ++ 0x5d :: rest) = some rest
  | _, _, rest, 0, hdepth => absurd hdepth (Nat.not_lt_zero _)
  | _, .last hbefore hvalue hafter, rest, depth + 1, hdepth => by
    simp only [List.length_append] at hdepth
    have hends : Ends (_ ++ 0x5d :: rest) := ends_append hafter (by decide)
    have hskip := skipValue_append hvalue hbefore hends (show _ ≤ depth by omega)
    have hcomma := @consume_ne _ rest 0x2c 0x5d hafter (by decide) (by decide)
    have hclose := @consume_append _ rest 0x5d hafter (by decide)
    simp only [List.append_assoc]
    simp [skipElements, hskip, hcomma, hclose]
  | _, @ElementsText.cons _ _ _ others hbefore hvalue hafter hrest, rest, depth + 1, hdepth => by
    simp only [List.length_append, List.length_cons] at hdepth
    have hends : Ends (_ ++ 0x2c :: (others ++ 0x5d :: rest)) := ends_append hafter (by decide)
    have hskip := skipValue_append hvalue hbefore hends (show _ ≤ depth by omega)
    have hcomma := @consume_append _ (others ++ 0x5d :: rest) 0x2c hafter (by decide)
    have ih := @skipElements_append _ hrest rest depth (by omega)
    simp only [List.append_assoc, List.cons_append]
    simp [skipElements, hskip, hcomma, ih]

end

/-! ### What is passed -/

/-- What is passed on a value that begins with no white space, once its members and elements
are known. -/
theorem of_skipValue_succ {depth : ℕ}
    (hmembers : ∀ {text rest : JsonCursor}, skipMembers depth text = some rest →
      ∃ inside, MembersText inside ∧ text = inside ++ 0x7d :: rest)
    (helements : ∀ {text rest : JsonCursor}, skipElements depth text = some rest →
      ∃ inside, ElementsText inside ∧ text = inside ++ 0x5d :: rest)
    (h : skipValue (depth + 1) text = some rest) :
  ∃ value, ValueText value ∧ skipWs text = value ++ rest
  := by
  rw [skipValue] at h
  cases hskip : skipWs text with
  | nil => simp [hskip] at h
  | cons byte tail =>
    simp only [hskip] at h
    by_cases hquote : byte = 0x22
    · subst hquote
      obtain ⟨body, hbody, rfl⟩ := of_skipBody h
      exact ⟨_, .string hbody, by simp⟩
    by_cases hbrace : byte = 0x7b
    · subst hbrace
      simp only [hquote, if_false, if_true] at h
      cases hclose : consume 0x7d tail with
      | some others =>
        obtain rfl : others = rest := by simpa [hclose] using h
        obtain ⟨inside, hinside, rfl⟩ := of_consume hclose
        exact ⟨_, .emptyObject hinside, by simp⟩
      | none =>
        obtain ⟨inside, hinside, rfl⟩ := hmembers (by simpa only [hclose] using h)
        exact ⟨_, .object hinside, by simp⟩
    by_cases hbracket : byte = 0x5b
    · subst hbracket
      simp only [hquote, hbrace, if_false, if_true] at h
      cases hclose : consume 0x5d tail with
      | some others =>
        obtain rfl : others = rest := by simpa [hclose] using h
        obtain ⟨inside, hinside, rfl⟩ := of_consume hclose
        exact ⟨_, .emptyArray hinside, by simp⟩
      | none =>
        obtain ⟨inside, hinside, rfl⟩ := helements (by simpa only [hclose] using h)
        exact ⟨_, .array hinside, by simp⟩
    simp only [hquote, hbrace, hbracket, if_false] at h
    obtain ⟨run, hrun, htail⟩ := of_skipRun h (by simp [hquote, hbrace, hbracket])
    exact ⟨run, .run hrun, htail⟩

/-- A value that is passed is a text of the grammar, behind white space. -/
theorem of_skip : ∀ (depth : ℕ),
  (∀ {text rest : JsonCursor}, skipValue depth text = some rest →
    ∃ before value, Blank before ∧ ValueText value ∧ text = before ++ (value ++ rest)) ∧
  (∀ {text rest : JsonCursor}, skipMembers depth text = some rest →
    ∃ inside, MembersText inside ∧ text = inside ++ 0x7d :: rest) ∧
  (∀ {text rest : JsonCursor}, skipElements depth text = some rest →
    ∃ inside, ElementsText inside ∧ text = inside ++ 0x5d :: rest)
  | 0 => by
    refine ⟨?_, ?_, ?_⟩
    all_goals
      intro text rest h
      cases h
  | depth + 1 => by
    obtain ⟨hvalue, hmembers, helements⟩ := of_skip depth
    refine ⟨?_, ?_, ?_⟩
    · intro text rest h
      obtain ⟨before, hbefore, htext⟩ := exists_blank text
      obtain ⟨value, hvalue, hskip⟩ := of_skipValue_succ hmembers helements h
      exact ⟨before, value, hbefore, hvalue, hskip ▸ htext⟩
    · intro text rest h
      simp only [skipMembers, Option.bind_eq_some_iff] at h
      obtain ⟨_, hkey, _, hsign, tail, hskip, h⟩ := h
      obtain ⟨before, name, hbefore, hname, rfl⟩ := of_skipString hkey
      obtain ⟨between, hbetween, rfl⟩ := of_consume hsign
      obtain ⟨colon, value, hcolon, hvalue, rfl⟩ := hvalue hskip
      cases hcomma : consume 0x2c tail with
      | none =>
        obtain ⟨after, hafter, rfl⟩ := of_consume (by simpa only [hcomma] using h)
        refine ⟨_, .last hbefore hname hbetween hcolon hvalue hafter, ?_⟩
        simp
      | some others =>
        obtain ⟨after, hafter, rfl⟩ := of_consume hcomma
        obtain ⟨inside, hinside, rfl⟩ := hmembers (by simpa only [hcomma] using h)
        refine ⟨_, .cons hbefore hname hbetween hcolon hvalue hafter hinside, ?_⟩
        simp
    · intro text rest h
      simp only [skipElements, Option.bind_eq_some_iff] at h
      obtain ⟨tail, hskip, h⟩ := h
      obtain ⟨before, value, hbefore, hvalue, rfl⟩ := hvalue hskip
      cases hcomma : consume 0x2c tail with
      | none =>
        obtain ⟨after, hafter, rfl⟩ := of_consume (by simpa only [hcomma] using h)
        refine ⟨_, .last hbefore hvalue hafter, ?_⟩
        simp
      | some others =>
        obtain ⟨after, hafter, rfl⟩ := of_consume hcomma
        obtain ⟨inside, hinside, rfl⟩ := helements (by simpa only [hcomma] using h)
        refine ⟨_, .cons hbefore hvalue hafter hinside, ?_⟩
        simp

theorem of_skipValue {depth : ℕ} (h : skipValue depth text = some rest) :
  ∃ before value, Blank before ∧ ValueText value ∧ text = before ++ (value ++ rest)
  := (of_skip depth).1 h

/-! ### Depth -/

end JsonCursor

end GRParse.Chunking
