import GRParse.Render.KeyOrder
import Mathlib.Data.List.DropRight

/-!
# Trees in order

What the pass over a text does to the tree that the text spells: the members of the objects that
are the value of a key in the set are put into order, and the tree is printed without white
space.
-/

namespace GRParse.Render

open Json Sorting List

/-! ### Trees in order -/

def quote (body : List UInt8) : List UInt8 :=
  0x22 :: (body ++ [0x22])

mutual

/-- A tree with the members of some objects in order; `sort` tells whether the tree itself is the
value of one of the keys. -/
def sortTree (names : List (List UInt8)) : Bool → Tree → Tree
  | _, .scalar token => .scalar token
  | _, .string body => .string body
  | _, .array elements => .array (sortElements names elements)
  | sort, .object members =>
    .object (if sort then order (fun member => quote member.1) (sortMembers names members)
      else sortMembers names members)

def sortElements (names : List (List UInt8)) : List Tree → List Tree
  | [] => []
  | element :: elements => sortTree names false element :: sortElements names elements

def sortMembers (names : List (List UInt8)) :
    List (List UInt8 × Tree) → List (List UInt8 × Tree)
  | [] => []
  | (key, member) :: members =>
    (key, sortTree names (names.contains key) member) :: sortMembers names members

end

mutual

/-- The text of a tree without white space. -/
def compact : Tree → List UInt8
  | .scalar token => token
  | .string body => quote body
  | .array elements => 0x5b :: (compactElements elements ++ [0x5d])
  | .object members => 0x7b :: (compactMembers members ++ [0x7d])

def compactElements : List Tree → List UInt8
  | [] => []
  | element :: elements =>
    compact element ++ if elements = [] then [] else 0x2c :: compactElements elements

def compactMembers : List (List UInt8 × Tree) → List UInt8
  | [] => []
  | (key, member) :: members =>
    quote key ++ 0x3a :: (compact member ++
      if members = [] then [] else 0x2c :: compactMembers members)

end

/-- A member as it is written. -/
def memberOf (member : List UInt8 × Tree) : Member :=
  ⟨quote member.1, quote member.1 ++ 0x3a :: compact member.2⟩

theorem joinMembers_memberOf (members : List (List UInt8 × Tree)) :
  joinMembers (members.map memberOf) = compactMembers members
  := by
  induction members with
  | nil => rfl
  | cons member members ih =>
    cases members with
    | nil => simp [joinMembers, memberOf, compactMembers]
    | cons next members =>
      rw [map_cons, map_cons, joinMembers, ← map_cons, ih]
      · simp [memberOf, compactMembers]
      · simp

@[simp]
theorem order_nil {α : Type} (key : α → List UInt8) :
  order key [] = []
  := by
  simp [order, sortOn]

theorem order_map {α β : Type} (key : β → List UInt8) (f : α → β) (members : List α) :
  order key (members.map f) = (order (fun member => key (f member)) members).map f
  := by
  have hall : (members.map f).all (fun member => (integerKey (key member)).isSome)
      = members.all fun member => (integerKey (key (f member))).isSome := by
    rw [all_map]
    rfl
  rw [order, order, hall]
  split
  · exact sortOn_map _ f members
  · exact sortOn_map _ f members

theorem joinMembers_order (sort : Bool) (members : List (List UInt8 × Tree)) :
  joinMembers (if sort then order Member.key (members.map memberOf) else members.map memberOf)
    = compactMembers (if sort then order (fun member => quote member.1) members else members)
  := by
  rw [order_map, ← joinMembers_memberOf]
  cases sort
  · rfl
  · rfl

/-! ### What the order depends on -/

/-- Keys that spell different integers if they all spell integers. -/
def TellsApart (keys : List (List UInt8)) : Prop :=
  (∀ key ∈ keys, (integerKey (quote key)).isSome) →
    (keys.map fun key => integerKey (quote key)).Nodup

section

variable {α : Type} {key : α → List UInt8} {members others : List α}

theorem order_perm (members : List α) :
  (order key members).Perm members
  := by
  rw [order]
  split
  · exact sortOn_perm _ members
  · exact sortOn_perm _ members

theorem all_integer_perm (h : members.Perm others) :
  (members.all fun member => (integerKey (key member)).isSome)
    = others.all fun member => (integerKey (key member)).isSome
  := h.all_eq

theorem order_order (members : List α) :
  order key (order key members) = order key members
  := by
  have hall := @all_integer_perm _ key _ _ (@order_perm _ key members)
  by_cases hint : members.all fun member => (integerKey (key member)).isSome
  · rw [order, if_pos (hall.trans hint), order, if_pos hint]
    exact sortOn_eq_self _ (pairwise_sortOn _ members)
  · rw [order, if_neg (fun h => hint (hall.symm.trans h)), order, if_neg hint]
    exact sortOn_eq_self _ (pairwise_sortOn _ members)

theorem quote_injective {body other : List UInt8}
    (h : (quote body).map UInt8.toNat = (quote other).map UInt8.toNat) :
  body = other
  := by
  have hquote : quote body = quote other :=
    map_injective_iff.mpr (fun _ _ => UInt8.toNat_inj.mp) h
  simpa [quote] using hquote

end

/-- Members with different keys have one order, unless two keys spell one integer. -/
theorem order_eq_of_perm {α : Type} {members others : List (List UInt8 × α)}
    (h : members.Perm others) (hkeys : (members.map Prod.fst).Nodup)
    (happart : TellsApart (members.map Prod.fst)) :
  order (fun member => quote member.1) members = order (fun member => quote member.1) others
  := by
  have hinj : ∀ a ∈ members, ∀ b ∈ members, a.1 = b.1 → a = b :=
    fun a ha b hb => inj_on_of_nodup_map hkeys ha hb
  have hall := @all_integer_perm _ (fun member : List UInt8 × α => quote member.1) _ _ h
  by_cases hint : members.all fun member => (integerKey (quote member.1)).isSome
  · rw [order, if_pos hint, order, if_pos (hall.symm.trans hint)]
    apply sortOn_congr_perm h
    intro a ha b hb hab
    have hisSome := all_eq_true.mp hint
    have hnodup := happart (by simpa using hisSome)
    rw [map_map] at hnodup
    obtain ⟨n, hn⟩ := Option.isSome_iff_exists.mp (hisSome a ha)
    obtain ⟨m, hm⟩ := Option.isSome_iff_exists.mp (hisSome b hb)
    apply inj_on_of_nodup_map hnodup ha hb
    simp only [hn, hm, Option.getD_some] at hab
    simp [hn, hm, hab]
  · rw [order, if_neg hint, order, if_neg (fun h => hint (hall.trans h))]
    apply sortOn_congr_perm h
    intro a ha b hb hab
    exact hinj a ha b hb (quote_injective hab)

/-- Members of which two keys spell one integer have more than one order. -/
theorem tellsApart_of_order_eq {α : Type} {members : List (List UInt8 × α)}
    (hkeys : (members.map Prod.fst).Nodup)
    (h : ∀ others, members.Perm others →
      order quote (others.map Prod.fst) = order quote (members.map Prod.fst)) :
  TellsApart (members.map Prod.fst)
  := by
  intro hint
  rw [map_map]
  apply (List.Nodup.of_map _ hkeys).map_on
  intro a ha b hb hab
  by_contra hne
  obtain ⟨before, after, rfl⟩ := append_of_mem ha
  have hb' : b ∈ before ++ after := by
    rcases mem_append.mp hb with hb | hb
    · exact mem_append_left _ hb
    · rcases mem_cons.mp hb with rfl | hb
      · exact absurd rfl hne
      · exact mem_append_right _ hb
  obtain ⟨before', after', hsplit⟩ := append_of_mem hb'
  have hperm : (before ++ a :: after).Perm (a :: b :: (before' ++ after')) := by
    apply perm_middle.trans
    rw [hsplit]
    exact perm_middle.cons _
  have hswap := (h _ (hperm.trans (.swap _ _ _))).trans (h _ hperm).symm
  have hall : ∀ others, (before ++ a :: after).Perm others →
      ((others.map Prod.fst).all fun key => (integerKey (quote key)).isSome) := by
    intro others hothers
    rw [← all_integer_perm (hothers.map Prod.fst)]
    exact all_eq_true.mpr hint
  rw [order, if_pos (hall _ (hperm.trans (.swap _ _ _))), order, if_pos (hall _ hperm)] at hswap
  -- the two keys keep their order, whichever it is
  have hab : integerKey (quote a.1) = integerKey (quote b.1) := hab
  have hfilter := congrArg (filter fun key =>
    (integerKey (quote key)).getD 0 = (integerKey (quote a.1)).getD 0) hswap
  simp only [map_cons] at hfilter
  rw [filter_sortOn, filter_sortOn, filter_cons_of_pos (by simp [hab]),
    filter_cons_of_pos (by simp), filter_cons_of_pos (by simp)] at hfilter
  exact hne (inj_on_of_nodup_map hkeys ha hb (cons.inj hfilter).1.symm)

/-! ### The pass on the text of a tree -/

namespace KeyOrderPass

theorem skipSpace_append {blank text : List UInt8} (h : Blank blank) :
  skipSpace (blank ++ text) = skipSpace text
  := by
  apply dropWhile_append_of_pos
  intro byte hbyte
  have hspace := all_eq_true.mp h byte hbyte
  simp only [isSpace, Bool.or_eq_true, decide_eq_true_eq] at hspace
  rcases hspace with ((rfl | rfl) | rfl) | rfl
  all_goals decide

theorem isspace_of_lt {byte : UInt8} (h : 0x20 < byte) :
  isspace byte = false
  := by
  have hbyte : 0x20 < byte.toNat := h
  by_contra hspace
  simp only [isspace, Bool.not_eq_false, Bool.or_eq_true, Bool.and_eq_true, decide_eq_true_eq]
    at hspace
  rcases hspace with rfl | ⟨-, hle⟩
  · exact absurd h (by decide)
  · have hle : byte.toNat ≤ 0x0d := hle
    omega

theorem skipSpace_byte {before rest : List UInt8} {byte : UInt8} (hbefore : Blank before)
    (h : 0x20 < byte) :
  skipSpace (before ++ byte :: rest) = byte :: rest
  := by
  rw [skipSpace_append hbefore, skipSpace, dropWhile_cons_of_neg]
  simp [isspace_of_lt h]

theorem skipSpace_value {tree : Tree} {before text rest : List UInt8} (hbefore : Blank before)
    (h : tree.Spells text) :
  skipSpace (before ++ (text ++ rest)) = text ++ rest
  := by
  obtain ⟨byte, tail, rfl, hbyte, -⟩ := h.head
  exact skipSpace_byte hbefore hbyte

theorem skipSpace_skipSpace (text : List UInt8) :
  skipSpace (skipSpace text) = skipSpace text
  := dropWhile_idempotent _ _

variable (size : ℕ)

@[simp]
theorem literalFrom_quote (rest : List UInt8) :
  literalFrom size (0x22 :: rest) = .ok ([0x22], rest)
  := by
  cases rest <;> simp [literalFrom]

@[simp]
theorem literalFrom_escape (escaped : UInt8) (rest : List UInt8) :
  literalFrom size (0x5c :: escaped :: rest)
    = (literalFrom size rest).map fun (literal, rest) => (0x5c :: escaped :: literal, rest)
  := by
  simp [literalFrom]

theorem literalFrom_plain {byte : UInt8} (hquote : byte ≠ 0x22) (hescape : byte ≠ 0x5c)
    (rest : List UInt8) :
  literalFrom size (byte :: rest)
    = (literalFrom size rest).map fun (literal, rest) => (byte :: literal, rest)
  := by
  cases rest <;> simp [literalFrom, hquote, hescape]

/-- A string is copied up to the quotation mark that a parser takes for its end. -/
theorem literalFrom_of_scanBody {text body rest : List UInt8}
    (h : scanBody text = some (body, rest)) :
  literalFrom size text = .ok (body ++ [0x22], rest)
  := by
  induction hn : text.length using Nat.strong_induction_on generalizing text body with
  | _ n ih =>
    subst hn
    cases text with
    | nil => cases h
    | cons byte text =>
      by_cases hquote : byte = 0x22
      · subst hquote
        rw [scanBody_quote] at h
        cases h
        exact literalFrom_quote size _
      · by_cases hescape : byte = 0x5c
        · subst hescape
          cases text with
          | nil => cases h
          | cons escaped text =>
            rw [scanBody_escape, Option.map_eq_some_iff] at h
            obtain ⟨⟨inner, after⟩, hinner, heq⟩ := h
            cases heq
            rw [literalFrom_escape, ih text.length (by simp only [length_cons]; omega) hinner rfl]
            rfl
        · rw [scanBody_plain hquote hescape, Option.map_eq_some_iff] at h
          obtain ⟨⟨inner, after⟩, hinner, heq⟩ := h
          cases heq
          rw [literalFrom_plain size hquote hescape, ih text.length (by simp) hinner rfl]
          rfl

theorem stringLiteral_append {body : List UInt8} (h : isBody body) (rest : List UInt8) :
  stringLiteral size (0x22 :: (body ++ 0x22 :: rest)) = .ok (quote body, rest)
  := by
  simp [stringLiteral, literalFrom_of_scanBody size (scanBody_append h), quote, Except.map]

theorem stops_of_endsScalar {byte : UInt8} (h : endsScalar byte) :
  stops byte
  := by
  simp only [endsScalar, isSpace, Bool.or_eq_true, decide_eq_true_eq] at h
  rcases h with ((rfl | rfl) | rfl) | ((rfl | rfl) | rfl) | rfl
  all_goals decide

theorem scalar_append {token rest : List UInt8} (h : isToken token) (hrest : Ends rest) :
  scalar size (token ++ rest) = .ok (token, rest)
  := by
  have htoken : ∀ byte ∈ token, !stops byte := by
    intro byte hbyte
    have hends := endsScalar_of_isToken h hbyte
    have hspace := isspace_of_lt (lt_of_isToken h hbyte)
    simp only [endsScalar, Bool.or_eq_false_iff] at hends
    simp [stops, hends, hspace]
  have htake : (token ++ rest).takeWhile (!stops ·) = token := by
    rw [takeWhile_append_of_pos htoken]
    cases rest with
    | nil => simp
    | cons byte rest => simp [stops_of_endsScalar (hrest byte rfl)]
  have hdrop : (token ++ rest).dropWhile (!stops ·) = rest := by
    rw [dropWhile_append_of_pos htoken]
    cases rest with
    | nil => rfl
    | cons byte rest => simp [stops_of_endsScalar (hrest byte rfl)]
  obtain ⟨byte, tail, hne, -⟩ := isToken_head h
  rw [scalar, htake, hdrop, if_neg (by simp [hne])]

variable (names : List (List UInt8))

theorem elements_skipSpace (fuel : ℕ) (text : List UInt8) :
  elements size names fuel (skipSpace text) = elements size names fuel text
  := by
  cases fuel with
  | zero => simp [elements]
  | succ fuel => simp only [elements, skipSpace_skipSpace]

theorem members_skipSpace (fuel : ℕ) (text : List UInt8) :
  members size names fuel (skipSpace text) = members size names fuel text
  := by
  cases fuel with
  | zero => simp [members]
  | succ fuel => simp only [members, skipSpace_skipSpace]

theorem value_array {fuel : ℕ} {sort : Bool} {text : List UInt8} :
  value size names (fuel + 1) sort (0x5b :: text) =
    if (skipSpace text).head? = some 0x5d then .ok ([0x5b, 0x5d], (skipSpace text).tail)
    else (elements size names fuel text).map fun (out, rest) => (0x5b :: out, rest)
  := by
  simp [value, elements_skipSpace]

theorem value_object {fuel : ℕ} {sort : Bool} {text : List UInt8} :
  value size names (fuel + 1) sort (0x7b :: text) =
    if (skipSpace text).head? = some 0x7d then .ok ([0x7b, 0x7d], (skipSpace text).tail)
    else (members size names fuel text).map fun (members, rest) =>
      (0x7b :: (joinMembers (if sort then order Member.key members else members) ++ [0x7d]), rest)
  := by
  simp [value, members_skipSpace]

theorem head_ne_of_spellsElements {element : Tree} {elements : List Tree}
    {inside rest : List UInt8} (h : SpellsElements (element :: elements) inside) :
  (skipSpace (inside ++ rest)).head? ≠ some 0x5d
  := by
  obtain ⟨before, text, after, hbefore, htext, -, hinside⟩ := h
  obtain ⟨byte, tail, rfl, hbyte, hbracket, -⟩ := htext.head
  have hskip : ∀ behind,
      skipSpace (before ++ (byte :: tail ++ behind)) = byte :: (tail ++ behind) :=
    fun behind => skipSpace_byte hbefore hbyte
  split at hinside
  case isTrue =>
    subst hinside
    simp only [append_assoc, hskip]
    simpa using hbracket
  case isFalse =>
    obtain ⟨others, -, rfl⟩ := hinside
    simp only [append_assoc, hskip]
    simpa using hbracket

theorem head_ne_of_spellsMembers {member : List UInt8 × Tree}
    {members : List (List UInt8 × Tree)} {inside rest : List UInt8}
    (h : SpellsMembers (member :: members) inside) :
  (skipSpace (inside ++ rest)).head? ≠ some 0x7d
  := by
  obtain ⟨before, between, colon, text, after, hbefore, -, -, -, -, -, hinside⟩ := h
  have hskip : ∀ behind, skipSpace (before ++ 0x22 :: behind) = 0x22 :: behind :=
    fun behind => skipSpace_byte hbefore (by decide)
  split at hinside
  case isTrue =>
    subst hinside
    simp only [append_assoc, cons_append, hskip]
    simp
  case isFalse =>
    obtain ⟨others, -, rfl⟩ := hinside
    simp only [append_assoc, cons_append, hskip]
    simp

theorem middle_quote (body : List UInt8) :
  (quote body).tail.dropLast = body
  := by
  simp [quote]

mutual

/-- The pass prints a value in order, up to what ends it. -/
theorem value_append : ∀ (tree : Tree) {text rest : List UInt8} {fuel : ℕ} {sort : Bool},
    tree.Spells text → Ends rest → tree.weight ≤ fuel →
  value size names fuel sort (text ++ rest) = .ok (compact (sortTree names sort tree), rest)
  | .scalar token, text, rest, fuel, sort, h, hrest, hfuel => by
    obtain ⟨htoken, rfl⟩ := h
    obtain ⟨fuel, rfl⟩ := Nat.exists_eq_add_of_le hfuel
    have hscalar := scalar_append size htoken hrest
    obtain ⟨byte, tail, rfl, hquote, hbracket, hbrace⟩ := isToken_head htoken
    rw [List.cons_append] at hscalar
    simp [Tree.weight, Nat.add_comm 1, value, hquote, hbracket, hbrace, hscalar, sortTree, compact]
  | .string body, text, rest, fuel, sort, h, hrest, hfuel => by
    obtain ⟨hbody, rfl⟩ := h
    obtain ⟨fuel, rfl⟩ := Nat.exists_eq_add_of_le hfuel
    simp [Tree.weight, Nat.add_comm 1, value, stringLiteral_append size hbody, sortTree, compact]
  | .array [], text, rest, fuel, sort, h, hrest, hfuel => by
    obtain ⟨inside, hinside, rfl⟩ := h
    obtain ⟨fuel, rfl⟩ := Nat.exists_eq_add_of_le hfuel
    have hskip : skipSpace (inside ++ 0x5d :: rest) = 0x5d :: rest :=
      skipSpace_byte hinside (by decide)
    simp [Tree.weight, weightElements, Nat.add_comm 1, value_array, hskip, sortTree, sortElements,
      compact, compactElements]
  | .array (element :: elements), text, rest, fuel, sort, h, hrest, hfuel => by
    obtain ⟨inside, hinside, rfl⟩ := h
    rw [Tree.weight] at hfuel
    obtain ⟨fuel, rfl⟩ : ∃ n, fuel = n + 1 := ⟨fuel - 1, by omega⟩
    have hout : KeyOrderPass.elements size names fuel (inside ++ 0x5d :: rest)
        = .ok (compactElements (sortElements names (element :: elements)) ++ [0x5d], rest) :=
      elements_append (element :: elements) (List.cons_ne_nil _ _) hinside (by omega)
    have hhead := @head_ne_of_spellsElements _ _ _ (0x5d :: rest) hinside
    simp only [List.cons_append, List.append_assoc, List.nil_append]
    rw [value_array, if_neg hhead, hout]
    rfl
  | .object [], text, rest, fuel, sort, h, hrest, hfuel => by
    obtain ⟨inside, hinside, rfl⟩ := h
    obtain ⟨fuel, rfl⟩ := Nat.exists_eq_add_of_le hfuel
    have hskip : skipSpace (inside ++ 0x7d :: rest) = 0x7d :: rest :=
      skipSpace_byte hinside (by decide)
    simp [Tree.weight, weightMembers, Nat.add_comm 1, value_object, hskip, sortTree, sortMembers,
      compact, compactMembers]
  | .object (member :: members), text, rest, fuel, sort, h, hrest, hfuel => by
    obtain ⟨inside, hinside, rfl⟩ := h
    rw [Tree.weight] at hfuel
    obtain ⟨fuel, rfl⟩ : ∃ n, fuel = n + 1 := ⟨fuel - 1, by omega⟩
    have hout : KeyOrderPass.members size names fuel (inside ++ 0x7d :: rest)
        = .ok ((sortMembers names (member :: members)).map memberOf, rest) :=
      members_append (member :: members) (List.cons_ne_nil _ _) hinside (by omega)
    have hhead := @head_ne_of_spellsMembers _ _ _ (0x7d :: rest) hinside
    have hjoin := joinMembers_order sort (sortMembers names (member :: members))
    simp only [List.cons_append, List.append_assoc, List.nil_append]
    rw [value_object, if_neg hhead, hout]
    simp only [Except.map, hjoin, sortTree, compact]

theorem elements_append : ∀ (elements : List Tree) {inside rest : List UInt8} {fuel : ℕ},
    elements ≠ [] → SpellsElements elements inside → weightElements elements ≤ fuel →
  KeyOrderPass.elements size names fuel (inside ++ 0x5d :: rest)
    = .ok (compactElements (sortElements names elements) ++ [0x5d], rest)
  | [], _, _, _, hne, _, _ => absurd rfl hne
  | element :: elements, inside, rest, fuel, _, h, hfuel => by
    obtain ⟨before, text, after, hbefore, htext, hafter, hinside⟩ := h
    rw [weightElements] at hfuel
    obtain ⟨fuel, rfl⟩ : ∃ n, fuel = n + 1 := ⟨fuel - 1, by omega⟩
    have hvalue : ∀ {byte : UInt8} {behind : List UInt8}, endsScalar byte →
        value size names fuel false (skipSpace (before ++ (text ++ (after ++ byte :: behind))))
          = .ok (compact (sortTree names false element), after ++ byte :: behind) := by
      intro byte behind hbyte
      rw [skipSpace_value hbefore htext]
      exact value_append element htext (ends_append hafter hbyte) (by omega)
    split at hinside
    case isTrue hnil =>
      subst hnil hinside
      have hclose : skipSpace (after ++ 0x5d :: rest) = 0x5d :: rest :=
        skipSpace_byte hafter (by decide)
      simp only [List.append_assoc]
      simp [KeyOrderPass.elements, @hvalue 0x5d rest (by decide), hclose, sortElements,
        compactElements]
    case isFalse hne =>
      obtain ⟨others, hothers, rfl⟩ := hinside
      have hcomma : ∀ behind, skipSpace (after ++ 0x2c :: behind) = 0x2c :: behind :=
        fun behind => skipSpace_byte hafter (by decide)
      have hout : KeyOrderPass.elements size names fuel (others ++ 0x5d :: rest)
          = .ok (compactElements (sortElements names elements) ++ [0x5d], rest) :=
        elements_append elements hne hothers (by omega)
      have hsorted : sortElements names elements ≠ [] := by
        cases elements with
        | nil => exact absurd rfl hne
        | cons next elements => simp [sortElements]
      simp only [List.append_assoc, List.cons_append]
      simp [KeyOrderPass.elements, @hvalue 0x2c (others ++ 0x5d :: rest) (by decide), hcomma, hout,
        sortElements, compactElements, hsorted, Except.map]

theorem members_append : ∀ (members : List (List UInt8 × Tree)) {inside rest : List UInt8}
    {fuel : ℕ}, members ≠ [] → SpellsMembers members inside → weightMembers members ≤ fuel →
  KeyOrderPass.members size names fuel (inside ++ 0x7d :: rest)
    = .ok ((sortMembers names members).map memberOf, rest)
  | [], _, _, _, hne, _, _ => absurd rfl hne
  | (key, member) :: members, inside, rest, fuel, _, h, hfuel => by
    obtain ⟨before, between, colon, text, after, hbefore, hkey, hbetween, hcolon, htext, hafter,
      hinside⟩ := h
    rw [weightMembers] at hfuel
    obtain ⟨fuel, rfl⟩ : ∃ n, fuel = n + 1 := ⟨fuel - 1, by omega⟩
    have hliteral : ∀ behind,
        stringLiteral size (skipSpace (before ++ (0x22 :: (key ++ 0x22 :: behind))))
          = .ok (quote key, behind) := by
      intro behind
      rw [skipSpace_byte hbefore (by decide), stringLiteral_append size hkey]
    have hseparator : ∀ behind, skipSpace (between ++ 0x3a :: behind) = 0x3a :: behind :=
      fun behind => skipSpace_byte hbetween (by decide)
    have hvalue : ∀ {byte : UInt8} {behind : List UInt8}, endsScalar byte →
        value size names fuel (names.contains (quote key).tail.dropLast)
            (skipSpace (colon ++ (text ++ (after ++ byte :: behind))))
          = .ok (compact (sortTree names (names.contains key) member), after ++ byte :: behind) := by
      intro byte behind hbyte
      rw [skipSpace_value hcolon htext, middle_quote]
      exact value_append member htext (ends_append hafter hbyte) (by omega)
    split at hinside
    case isTrue hnil =>
      subst hnil hinside
      have hclose : skipSpace (after ++ 0x7d :: rest) = 0x7d :: rest :=
        skipSpace_byte hafter (by decide)
      simp only [List.append_assoc, List.cons_append]
      rw [KeyOrderPass.members, hliteral]
      simp only [hseparator, List.head?_cons, List.tail_cons, @hvalue 0x7d rest (by decide), hclose]
      simp [sortMembers, memberOf]
    case isFalse hne =>
      obtain ⟨others, hothers, rfl⟩ := hinside
      have hcomma : ∀ behind, skipSpace (after ++ 0x2c :: behind) = 0x2c :: behind :=
        fun behind => skipSpace_byte hafter (by decide)
      have hout : KeyOrderPass.members size names fuel (others ++ 0x7d :: rest)
          = .ok ((sortMembers names members).map memberOf, rest) :=
        members_append members hne hothers (by omega)
      simp only [List.append_assoc, List.cons_append]
      rw [KeyOrderPass.members, hliteral]
      simp only [hseparator, List.head?_cons, List.tail_cons,
        @hvalue 0x2c (others ++ 0x7d :: rest) (by decide), hcomma, hout]
      simp [sortMembers, memberOf, Except.map]

end

end KeyOrderPass
/-- On a text of a tree the tree is printed in order. -/
theorem sortMapObjects_of_spelled {tree : Tree} {text : List UInt8} (h : Spelled tree text)
    (names : List (List UInt8)) :
  sortMapObjects text names = .ok (compact (sortTree names false tree))
  := by
  obtain ⟨before, inside, after, hbefore, hinside, hafter, rfl⟩ := h
  have hweight := weight_lt tree hinside
  have hvalue : KeyOrderPass.value (before ++ (inside ++ after)).length names
      (2 * (before ++ (inside ++ after)).length + 2) false (inside ++ after)
      = .ok (compact (sortTree names false tree), after) := by
    apply KeyOrderPass.value_append _ names tree hinside (ends_of_blank hafter)
    simp only [length_append]
    omega
  have hblank : KeyOrderPass.skipSpace after = [] := by
    rw [← append_nil after, KeyOrderPass.skipSpace_append hafter]
    rfl
  rw [sortMapObjects, KeyOrderPass.skipSpace_value hbefore hinside, hvalue]
  simp [hblank]

end GRParse.Render
