import Mathlib.Data.List.DropRight

/-!
# Code points in UTF-8

The bytes of a UTF-8 text that do not continue a character are as many as its characters.  A
test of bytes that tells the same of all the bytes of a character cuts the bytes of a text
between characters.
-/

namespace Utf8

open List UInt8

/-- Whether a byte begins a character: it is not of the form `10xxxxxx`. -/
def startsChar (byte : UInt8) : Bool :=
  byte &&& 0xC0 != 0x80

/-- The number of characters that begin in the text, counted byte by byte. -/
def codepointCount (text : String) : ℕ :=
  text.toByteArray.data.toList.countP startsChar

/-- The low six bits of a number, marked as a continuation, continue a character. -/
theorem startsChar_continuation (n : ℕ) :
  startsChar (UInt8.ofNat (n % 64 + 128)) = false
  := by
  have h : ∀ k : Fin 64, startsChar (ofNat (k.val + 128)) = false := by decide
  exact h ⟨n % 64, Nat.mod_lt n (by decide)⟩

theorem startsChar_ascii {n : ℕ} (hn : n ≤ 127) :
  startsChar (UInt8.ofNat n) = true
  := by
  have h : ∀ k : Fin 128, startsChar (ofNat k.val) = true := by decide
  exact h ⟨n, by omega⟩

/-- A byte from `11000000` on begins a character. -/
theorem startsChar_lead {n : ℕ} (low : 192 ≤ n) (high : n < 256) :
  startsChar (UInt8.ofNat n) = true
  := by
  have h : ∀ k : Fin 64, startsChar (ofNat (k.val + 192)) = true := by decide
  have := h ⟨n - 192, by omega⟩
  rwa [show n - 192 + 192 = n by omega] at this

/-- One byte of the encoding of a character begins it. -/
theorem countP_utf8EncodeChar (c : Char) :
  (String.utf8EncodeChar c).countP startsChar = 1
  := by
  unfold String.utf8EncodeChar
  extract_lets v
  split_ifs
  · simp [@startsChar_ascii v (by omega)]
  all_goals
    rw [countP_cons_of_pos (startsChar_lead (by omega) (by omega))]
    simp only [countP_cons, countP_nil, startsChar_continuation, Bool.false_eq_true,
      if_false]

/-- The count is the number of characters. -/
theorem codepointCount_eq_length (text : String) :
  codepointCount text = text.length
  := by
  have bytes : text.toByteArray.data.toList = text.toList.flatMap String.utf8EncodeChar := by
    rw [← String.utf8Encode_toList, utf8Encode, toList_data_toByteArray]
  rw [codepointCount, bytes, ← String.length_toList]
  induction text.toList with
  | nil => rfl
  | cons c cs ih =>
    rw [flatMap_cons, countP_append, countP_utf8EncodeChar, ih, length_cons,
      Nat.add_comm]

/-! ### The bytes of a text -/

/-- The bytes of a text of characters. -/
def encode (text : List Char) : List UInt8 :=
  text.flatMap String.utf8EncodeChar

@[simp]
theorem encode_nil :
  encode [] = []
  := rfl

@[simp]
theorem encode_cons (c : Char) (text : List Char) :
  encode (c :: text) = String.utf8EncodeChar c ++ encode text
  := flatMap_cons

@[simp]
theorem encode_append (front back : List Char) :
  encode (front ++ back) = encode front ++ encode back
  := flatMap_append

/-- The characters of a text are counted by the bytes that begin them. -/
@[simp]
theorem countP_encode (text : List Char) :
  (encode text).countP startsChar = text.length
  := by
  induction text with
  | nil => rfl
  | cons c text ih =>
    rw [encode_cons, countP_append, countP_utf8EncodeChar, ih, length_cons,
      Nat.add_comm]

theorem utf8EncodeChar_ne_nil (c : Char) :
  String.utf8EncodeChar c ≠ []
  := by
  apply ne_nil_of_length_pos
  rw [String.length_utf8EncodeChar]
  exact c.utf8Size_pos

@[simp]
theorem encode_eq_nil_iff (text : List Char) :
  encode text = [] ↔ text = []
  := by
  cases text with
  | nil => simp
  | cons c text => simp

@[simp]
theorem isEmpty_encode (text : List Char) :
  (encode text).isEmpty = text.isEmpty
  := by
  rw [Bool.eq_iff_iff, List.isEmpty_iff, List.isEmpty_iff, encode_eq_nil_iff]

/-- Texts with the same bytes are the same. -/
theorem encode_injective :
  Function.Injective encode
  := by
  intro front back h
  have hbytes : String.ofList front = String.ofList back := by
    rw [← String.toByteArray_inj, String.toByteArray_ofList, String.toByteArray_ofList,
      utf8Encode, utf8Encode]
    exact congrArg _ h
  exact String.ofList_injective hbytes

/-- An ASCII character is its own byte. -/
theorem utf8EncodeChar_ascii {c : Char} (h : c.toNat < 128) :
  String.utf8EncodeChar c = [UInt8.ofNat c.toNat]
  := by
  have hle : c.val.toNat ≤ 127 := Nat.le_of_lt_succ h
  simp only [String.utf8EncodeChar, hle, if_true]
  rfl

theorem le_continuation (n : ℕ) :
  128 ≤ UInt8.ofNat (n % 64 + 128)
  := by
  have h : ∀ k : Fin 64, 128 ≤ ofNat (k.val + 128) := by decide
  exact h ⟨n % 64, Nat.mod_lt n (by decide)⟩

theorem le_lead {n : ℕ} (low : 192 ≤ n) (high : n < 256) :
  192 ≤ UInt8.ofNat n
  := by
  rw [le_iff_toNat_le, toNat_ofNat', Nat.mod_eq_of_lt high]
  exact low

/-- What the bytes of a character that is not ASCII look like: one that begins it, and some that
continue it. -/
theorem utf8EncodeChar_wide {c : Char} (h : 128 ≤ c.toNat) :
  ∃ lead continuations, String.utf8EncodeChar c = lead :: continuations ∧ 192 ≤ lead ∧
    ∀ byte ∈ continuations, 128 ≤ byte ∧ startsChar byte = false
  := by
  have hascii : ¬ c.val.toNat ≤ 127 := Nat.not_le.mpr h
  have hmax : c.val.toNat < 1114112 := by
    obtain hvalid | hvalid := c.valid
    · exact lt_of_lt_of_le hvalid (by decide)
    · exact hvalid.2
  unfold String.utf8EncodeChar
  extract_lets v
  rw [if_neg hascii]
  split_ifs
  all_goals
    refine ⟨_, _, rfl, le_lead (by omega) (by omega), ?_⟩
    simp only [mem_cons, not_mem_nil, or_false, forall_eq_or_imp, forall_eq,
      le_continuation, startsChar_continuation, and_self]

/-! ### Tests of bytes -/

/-- A test of bytes tells of every byte of a character what the test of characters tells of the
character. -/
def Reads (p : UInt8 → Bool) (q : Char → Bool) : Prop :=
  ∀ c, ∀ byte ∈ String.utf8EncodeChar c, p byte = q c

theorem ofNat_toNat_lt {c : Char} (h : c.toNat < 128) :
  ∃ n : Fin 128, c = Char.ofNat n ∧ String.utf8EncodeChar c = [UInt8.ofNat n]
  := ⟨⟨c.toNat, h⟩, (Char.ofNat_toNat c).symm, utf8EncodeChar_ascii h⟩

/-- A test that is constant off the ASCII characters reads characters if it does the ASCII ones. -/
theorem Reads.of_ascii {p : UInt8 → Bool} {q : Char → Bool} (wide : Bool)
    (hascii : ∀ n : Fin 128, p (UInt8.ofNat n) = q (Char.ofNat n))
    (hbytes : ∀ byte, 128 ≤ byte → p byte = wide)
    (hchars : ∀ c : Char, 128 ≤ c.toNat → q c = wide) :
  Reads p q
  := by
  intro c byte hbyte
  obtain hc | hc := Nat.lt_or_ge c.toNat 128
  · obtain ⟨n, rfl, heq⟩ := ofNat_toNat_lt hc
    rw [heq, mem_singleton] at hbyte
    rw [hbyte, hascii n]
  · obtain ⟨lead, continuations, heq, hlead, hcontinuations⟩ := utf8EncodeChar_wide hc
    rw [hchars c hc]
    apply hbytes
    rw [heq] at hbyte
    cases hbyte with
    | head => exact UInt8.le_trans (by decide) hlead
    | tail _ hbyte => exact (hcontinuations byte hbyte).1

/-- Whether a byte is one of some ASCII characters. -/
theorem Reads.mem {chars : List Char} (ascii : chars.all (·.toNat < 128)) :
  Reads (· ∈ encode chars) (· ∈ chars)
  := by
  intro c byte hbyte
  rw [decide_eq_decide, encode, mem_flatMap]
  constructor
  · rintro ⟨d, hd, hmem⟩
    obtain ⟨n, rfl, hbytes⟩ := ofNat_toNat_lt (by simpa using all_eq_true.mp ascii d hd)
    rw [hbytes, mem_singleton] at hmem
    subst hmem
    obtain hc | hc := Nat.lt_or_ge c.toNat 128
    · obtain ⟨k, rfl, heq⟩ := ofNat_toNat_lt hc
      rw [heq, mem_singleton] at hbyte
      have hkn : n = k := by
        have hnat := congrArg UInt8.toNat hbyte
        rw [UInt8.toNat_ofNat', UInt8.toNat_ofNat'] at hnat
        omega
      exact hkn ▸ hd
    · obtain ⟨lead, continuations, heq, hlead, hcontinuations⟩ := utf8EncodeChar_wide hc
      have hlow : ¬ 128 ≤ UInt8.ofNat n := by
        rw [UInt8.le_iff_toNat_le, UInt8.toNat_ofNat']
        have := n.isLt
        simp
        omega
      rw [heq] at hbyte
      cases hbyte with
      | head => exact absurd (UInt8.le_trans (by decide) hlead) hlow
      | tail _ hbyte => exact absurd (hcontinuations _ hbyte).1 hlow
  · intro hc
    exact ⟨c, hc, hbyte⟩

theorem Reads.or {p p' : UInt8 → Bool} {q q' : Char → Bool} (h : Reads p q) (h' : Reads p' q') :
  Reads (fun byte => p byte || p' byte) fun c => q c || q' c
  := by
  intro c byte hbyte
  simp only [h c byte hbyte, h' c byte hbyte]

/-- A map of bytes that takes the bytes of every character to those of its image maps texts. -/
theorem map_encode {f : UInt8 → UInt8} {g : Char → Char}
    (h : ∀ c, (String.utf8EncodeChar c).map f = String.utf8EncodeChar (g c)) (text : List Char) :
  (encode text).map f = encode (text.map g)
  := by
  induction text with
  | nil => rfl
  | cons c text ih => rw [encode_cons, map_append, h, ih, map_cons, encode_cons]

/-- A test of the images. -/
theorem Reads.comp {p : UInt8 → Bool} {q : Char → Bool} {f : UInt8 → UInt8} {g : Char → Char}
    (h : Reads p q) (hmap : ∀ c, (String.utf8EncodeChar c).map f = String.utf8EncodeChar (g c)) :
  Reads (fun byte => p (f byte)) fun c => q (g c)
  := by
  intro c byte hbyte
  apply h (g c)
  rw [← hmap c]
  exact mem_map_of_mem hbyte

/-- An ASCII text has as many bytes as characters. -/
theorem length_encode_ascii {text : List Char} (h : ∀ c ∈ text, c.toNat < 128) :
  (encode text).length = text.length
  := by
  induction text with
  | nil => rfl
  | cons c text ih =>
    rw [encode_cons, utf8EncodeChar_ascii (h c mem_cons_self), length_append,
      ih fun d hd => h d (mem_cons_of_mem _ hd), length_singleton, length_cons,
      Nat.add_comm]

/-- A map that stays off the ASCII characters maps texts if it does the ASCII ones. -/
theorem map_utf8EncodeChar_of_ascii {f : UInt8 → UInt8} {g : Char → Char}
    (hascii : ∀ n : Fin 128, [f (UInt8.ofNat n)] = String.utf8EncodeChar (g (Char.ofNat n)))
    (hbytes : ∀ byte, 128 ≤ byte → f byte = byte) (hchars : ∀ c : Char, 128 ≤ c.toNat → g c = c)
    (c : Char) :
  (String.utf8EncodeChar c).map f = String.utf8EncodeChar (g c)
  := by
  obtain hc | hc := Nat.lt_or_ge c.toNat 128
  · obtain ⟨n, rfl, heq⟩ := ofNat_toNat_lt hc
    rw [heq]
    exact hascii n
  · obtain ⟨lead, continuations, heq, hlead, hcontinuations⟩ := utf8EncodeChar_wide hc
    rw [hchars c hc, heq, map_cons, hbytes lead (UInt8.le_trans (by decide) hlead)]
    congr 1
    exact map_congr_left (fun byte hbyte => hbytes byte (hcontinuations byte hbyte).1)
      |>.trans (map_id _)

section Reads

variable {p : UInt8 → Bool} {q : Char → Bool} (h : Reads p q)

include h

theorem Reads.not :
  Reads (fun byte => !p byte) fun c => !q c
  := by
  intro c byte hbyte
  simp only [h c byte hbyte]

theorem Reads.all (text : List Char) :
  (encode text).all p = text.all q
  := by
  rw [Bool.eq_iff_iff]
  simp only [all_eq_true, encode, mem_flatMap]
  constructor
  · intro hall c hc
    obtain ⟨byte, hbyte⟩ := exists_mem_of_ne_nil _ (utf8EncodeChar_ne_nil c)
    rw [← h c byte hbyte]
    exact hall byte ⟨c, hc, hbyte⟩
  · rintro hall byte ⟨c, hc, hbyte⟩
    rw [h c byte hbyte]
    exact hall c hc

theorem Reads.takeWhile (text : List Char) :
  (encode text).takeWhile p = encode (text.takeWhile q)
  := by
  induction text with
  | nil => rfl
  | cons c text ih =>
    obtain ⟨byte, rest, hbytes⟩ := exists_cons_of_ne_nil (utf8EncodeChar_ne_nil c)
    rw [encode_cons, takeWhile_cons]
    split
    case isTrue hc =>
      rw [encode_cons, ← ih]
      exact takeWhile_append_of_pos fun byte hbyte => (h c byte hbyte).trans hc
    case isFalse hc =>
      rw [hbytes, cons_append, takeWhile_cons_of_neg, encode_nil]
      rwa [h c byte (hbytes ▸ mem_cons_self)]

theorem Reads.dropWhile (text : List Char) :
  (encode text).dropWhile p = encode (text.dropWhile q)
  := by
  have hparts : (encode text).takeWhile p ++ encode (text.dropWhile q) =
      (encode text).takeWhile p ++ (encode text).dropWhile p := by
    rw [takeWhile_append_dropWhile, h.takeWhile, ← encode_append,
      takeWhile_append_dropWhile]
  exact (append_cancel_left hparts).symm

theorem Reads.head? (text : List Char) :
  (encode text).head?.any p = text.head?.any q
  := by
  cases text with
  | nil => rfl
  | cons c text =>
    obtain ⟨byte, rest, hbytes⟩ := exists_cons_of_ne_nil (utf8EncodeChar_ne_nil c)
    rw [encode_cons, hbytes]
    exact h c byte (hbytes ▸ mem_cons_self)

theorem Reads.getLast? (text : List Char) :
  (encode text).getLast?.any p = text.getLast?.any q
  := by
  induction text using reverseRecOn with
  | nil => rfl
  | append_singleton text c ih =>
    obtain ⟨front, byte, hbytes⟩ :=
      (eq_nil_or_concat (String.utf8EncodeChar c)).resolve_left (utf8EncodeChar_ne_nil c)
    rw [concat_eq_append] at hbytes
    rw [encode_append, encode_cons, encode_nil, append_nil, hbytes, ← append_assoc,
      getLast?_concat, getLast?_concat]
    exact h c byte (by simp [hbytes])

/-- The last byte of a character that fails the test fails it. -/
theorem Reads.exists_last {c : Char} (hc : ¬ q c) :
  ∃ front byte, String.utf8EncodeChar c = front ++ [byte] ∧ ¬ p byte
  := by
  obtain ⟨front, byte, hbytes⟩ :=
    (eq_nil_or_concat (String.utf8EncodeChar c)).resolve_left (utf8EncodeChar_ne_nil c)
  rw [concat_eq_append] at hbytes
  refine ⟨front, byte, hbytes, ?_⟩
  rwa [h c byte (by simp [hbytes])]

theorem Reads.rtakeWhile (text : List Char) :
  (encode text).rtakeWhile p = encode (text.rtakeWhile q)
  := by
  induction text using List.reverseRecOn with
  | nil => rfl
  | append_singleton text c ih =>
    by_cases hc : q c
    · have hbytes : ∀ byte ∈ (String.utf8EncodeChar c).reverse, p byte := fun byte hbyte =>
        (h c byte (List.mem_reverse.mp hbyte)).trans hc
      rw [List.rtakeWhile_concat_pos _ _ _ hc, encode_append, encode_append, ← ih,
        List.rtakeWhile, List.rtakeWhile, encode_cons, encode_nil, List.append_nil,
        List.reverse_append, List.takeWhile_append_of_pos hbytes, List.reverse_append,
        List.reverse_reverse]
    · obtain ⟨front, byte, hbytes, hbyte⟩ := h.exists_last hc
      rw [List.rtakeWhile_concat_neg _ _ _ hc, encode_append, encode_cons, encode_nil,
        List.append_nil, hbytes, ← List.append_assoc, List.rtakeWhile_concat_neg _ _ _ hbyte]

theorem Reads.rdropWhile (text : List Char) :
  (encode text).rdropWhile p = encode (text.rdropWhile q)
  := by
  induction text using List.reverseRecOn with
  | nil => rfl
  | append_singleton text c ih =>
    by_cases hc : q c
    · have hbytes : ∀ byte ∈ (String.utf8EncodeChar c).reverse, p byte := fun byte hbyte =>
        (h c byte (List.mem_reverse.mp hbyte)).trans hc
      rw [List.rdropWhile_concat_pos _ _ _ hc, encode_append, ← ih,
        List.rdropWhile, List.rdropWhile, encode_cons, encode_nil, List.append_nil,
        List.reverse_append, List.dropWhile_append_of_pos hbytes]
    · obtain ⟨front, byte, hbytes, hbyte⟩ := h.exists_last hc
      rw [List.rdropWhile_concat_neg _ _ _ hc, encode_append, encode_cons, encode_nil,
        List.append_nil, hbytes, ← List.append_assoc, List.rdropWhile_concat_neg _ _ _ hbyte]

end Reads

end Utf8

/-!
## Bytes that may be no UTF-8

Any bytes are read as characters and as bytes that begin no character.  No character begins the
spelling of another, so that they are read in one way.
-/

namespace Utf8

/-- The character that bytes begin with. -/
def firstChar (bytes : List UInt8) : Option Char :=
  bytes.toByteArray.utf8DecodeChar? 0

theorem firstChar_append (c : Char) (rest : List UInt8) :
  firstChar (String.utf8EncodeChar c ++ rest) = some c
  := by
  rw [firstChar, List.toByteArray_append]
  exact ByteArray.utf8DecodeChar?_utf8EncodeChar_append

theorem firstChar_eq_some_iff {bytes : List UInt8} {c : Char} :
  firstChar bytes = some c ↔ ∃ rest, bytes = String.utf8EncodeChar c ++ rest
  := by
  constructor
  · intro h
    obtain ⟨rest, hrest⟩ := ByteArray.exists_of_utf8DecodeChar?_eq_some h
    use rest.data.toList
    rw [← List.toByteArray_inj, List.toByteArray_append, hrest]
    congr 1
    apply ByteArray.ext
    rw [List.data_toByteArray]
  · rintro ⟨rest, rfl⟩
    exact firstChar_append c rest

/-- Characters, and `none` for a byte that begins none. -/
def units : List UInt8 → List (Option Char)
  | [] => []
  | byte :: rest =>
    match firstChar (byte :: rest) with
    | some c => some c :: units (rest.drop (c.utf8Size - 1))
    | none => none :: units rest
termination_by bytes => bytes.length

theorem units_nil :
  units [] = []
  := by
  rw [units]

theorem units_char_append (c : Char) (rest : List UInt8) :
  units (String.utf8EncodeChar c ++ rest) = some c :: units rest
  := by
  have hfirst := firstChar_append c rest
  have hdrop : (String.utf8EncodeChar c ++ rest).drop c.utf8Size = rest := by
    rw [← String.length_utf8EncodeChar, List.drop_left]
  have hpos := c.utf8Size_pos
  cases hbytes : String.utf8EncodeChar c ++ rest with
  | nil => exact absurd (List.append_eq_nil_iff.mp hbytes).1 (utf8EncodeChar_ne_nil c)
  | cons byte after =>
    rw [hbytes] at hfirst hdrop
    obtain ⟨size, hsize⟩ := Nat.exists_eq_add_of_lt hpos
    have hafter : after.drop (c.utf8Size - 1) = rest := by
      rw [hsize, Nat.zero_add, List.drop_succ_cons] at hdrop
      rw [hsize, Nat.zero_add, Nat.add_sub_cancel, hdrop]
    rw [units, hfirst]
    simp only [hafter]

theorem units_byte {byte : UInt8} {rest : List UInt8} (h : firstChar (byte :: rest) = none) :
  units (byte :: rest) = none :: units rest
  := by
  rw [units, h]

theorem units_encode_append (chars : List Char) (rest : List UInt8) :
  units (encode chars ++ rest) = chars.map some ++ units rest
  := by
  induction chars with
  | nil => simp
  | cons c chars ih =>
    rw [encode_cons, List.append_assoc, units_char_append, ih]
    rfl

theorem units_encode (chars : List Char) :
  units (encode chars) = chars.map some
  := by
  simpa [units_nil] using units_encode_append chars []

/-- Bytes are UTF-8, or they are so up to a byte that begins no character. -/
theorem exists_encode_append (bytes : List UInt8) :
  (∃ chars, bytes = encode chars) ∨
    ∃ chars byte rest, bytes = encode chars ++ byte :: rest ∧ firstChar (byte :: rest) = none
  := by
  induction hlength : bytes.length using Nat.strong_induction_on generalizing bytes with
  | _ length ih =>
    cases bytes with
    | nil => exact Or.inl ⟨[], rfl⟩
    | cons byte rest =>
      cases hfirst : firstChar (byte :: rest) with
      | none => exact Or.inr ⟨[], byte, rest, rfl, hfirst⟩
      | some c =>
        obtain ⟨after, hafter⟩ := firstChar_eq_some_iff.mp hfirst
        have hlt : after.length < length := by
          have hpos := List.length_pos_of_ne_nil (utf8EncodeChar_ne_nil c)
          rw [← hlength, hafter, List.length_append]
          omega
        rw [hafter]
        rcases ih after.length hlt after rfl with ⟨chars, rfl⟩ | ⟨chars, byte', rest', rfl, hnone⟩
        · exact Or.inl ⟨c :: chars, (encode_cons c chars).symm⟩
        · exact Or.inr ⟨c :: chars, byte', rest', by rw [encode_cons, List.append_assoc], hnone⟩

/-- Bytes without one that begins no character are UTF-8. -/
theorem exists_encode_of_units {bytes : List UInt8} (h : none ∉ units bytes) :
  ∃ chars, bytes = encode chars
  := by
  rcases exists_encode_append bytes with hchars | ⟨chars, byte, rest, rfl, hnone⟩
  · exact hchars
  · rw [units_encode_append, units_byte hnone] at h
    exact absurd (List.mem_append_right _ List.mem_cons_self) h

/-! ### Validation -/

/-- Whether a byte is the first that begins no character. -/
def IsFirstInvalid (bytes : List UInt8) (offset : ℕ) : Prop :=
  (∃ chars, bytes.take offset = encode chars) ∧ firstChar (bytes.drop offset) = none

/-- A validation reports the first byte that begins no character, when there is one. -/
def ReportsFirstInvalid (validate : (bytes : List UInt8) → Option (Fin bytes.length)) : Prop :=
  ∀ bytes, match validate bytes with
    | none => ∃ chars, bytes = encode chars
    | some offset => IsFirstInvalid bytes offset

/-- The first byte that begins no character. -/
def firstInvalid (bytes : List UInt8) : Option (Fin bytes.length) :=
  (List.finRange bytes.length).find? fun offset =>
    none ∉ units (bytes.take offset) ∧ firstChar (bytes.drop offset) = none

theorem firstInvalid_reports :
  ReportsFirstInvalid firstInvalid
  := by
  intro bytes
  split
  case h_1 hnone =>
    rcases exists_encode_append bytes with hchars | ⟨chars, byte, rest, rfl, hbyte⟩
    · exact hchars
    · have hlt : (encode chars).length < (encode chars ++ byte :: rest).length := by simp
      have hnot := List.find?_eq_none.mp hnone ⟨_, hlt⟩ (List.mem_finRange _)
      refine absurd ?_ hnot
      simp [units_encode, hbyte]
  case h_2 offset hsome =>
    have h := List.find?_some hsome
    rw [decide_eq_true_eq] at h
    exact ⟨exists_encode_of_units h.1, h.2⟩

/-! ### Cut texts -/

/-- Bytes that spell characters. -/
def IsText (bytes : List UInt8) : Prop :=
  ∃ chars, bytes = encode chars

/-- The longest beginning of some bytes that spells characters. -/
structure LongestValid (bytes kept : List UInt8) : Prop where
  leading : kept <+: bytes
  valid : IsText kept
  longest : ∀ other, other <+: bytes → IsText other → other.length ≤ kept.length

/-- What begins with characters and spells some spells some behind them. -/
theorem isText_of_encode_append {chars : List Char} {rest : List UInt8}
    (h : IsText (encode chars ++ rest)) :
  IsText rest
  := by
  obtain ⟨whole, hwhole⟩ := h
  apply exists_encode_of_units
  intro hnone
  have hunits := congrArg units hwhole
  rw [units_encode_append, units_encode] at hunits
  have hmem : none ∈ whole.map some := hunits ▸ List.mem_append_right _ hnone
  simp at hmem

/-- A part of a character spells none. -/
theorem not_isText_of_part {c : Char} {part rest : List UInt8} (hpart : part ≠ [])
    (hrest : rest ≠ []) (h : String.utf8EncodeChar c = part ++ rest) :
  ¬IsText part
  := by
  rintro ⟨chars, rfl⟩
  cases chars with
  | nil => exact hpart rfl
  | cons d chars =>
    have hfirst := firstChar_append c []
    rw [List.append_nil, h, encode_cons, List.append_assoc, firstChar_append] at hfirst
    obtain rfl := Option.some.inj hfirst
    have hlength := congrArg List.length h
    have hpos := List.length_pos_of_ne_nil hrest
    rw [encode_cons, List.length_append, List.length_append] at hlength
    omega

/-- Behind what spells characters, a part of a character is left out. -/
theorem longestValid_append {chars : List Char} {c : Char} {part rest : List UInt8}
    (hrest : rest ≠ []) (h : String.utf8EncodeChar c = part ++ rest) :
  LongestValid (encode chars ++ part) (encode chars)
  := by
  constructor
  case leading => exact List.prefix_append _ _
  case valid => exact ⟨chars, rfl⟩
  case longest =>
    intro other hother hvalid
    by_contra hlonger
    obtain ⟨more, rfl⟩ := List.prefix_of_prefix_length_le (List.prefix_append _ _) hother
      (not_le.mp hlonger).le
    obtain ⟨tail, hpart⟩ := (List.prefix_append_right_inj _).mp hother
    have hmore : more ≠ [] := by
      rintro rfl
      exact hlonger (by simp)
    rw [← hpart, List.append_assoc] at h
    exact not_isText_of_part hmore (List.append_ne_nil_of_right_ne_nil _ hrest) h
      (isText_of_encode_append hvalid)

theorem longestValid_self {bytes : List UInt8} (h : IsText bytes) :
  LongestValid bytes bytes
  := ⟨List.prefix_rfl, h, fun _ hother _ => hother.length_le⟩

/-- A text that is cut is cut behind a character or inside of one. -/
theorem take_encode (chars : List Char) (count : ℕ) :
  ∃ kept, (encode chars).take count = encode kept ∨
    ∃ c part rest, part ≠ [] ∧ rest ≠ [] ∧ String.utf8EncodeChar c = part ++ rest ∧
      (encode chars).take count = encode kept ++ part
  := by
  induction chars generalizing count with
  | nil => exact ⟨[], .inl List.take_nil⟩
  | cons c chars ih =>
    rw [encode_cons, List.take_append]
    rcases lt_or_ge count (String.utf8EncodeChar c).length with hlt | hge
    · rw [Nat.sub_eq_zero_of_le hlt.le, List.take_zero, List.append_nil]
      use []
      rcases Nat.eq_zero_or_pos count with rfl | hpos
      · exact .inl rfl
      · right
        refine ⟨c, (String.utf8EncodeChar c).take count, (String.utf8EncodeChar c).drop count,
          ?_, ?_, (List.take_append_drop _ _).symm, rfl⟩
        · exact List.ne_nil_of_length_pos (by rw [List.length_take]; omega)
        · exact List.ne_nil_of_length_pos (by rw [List.length_drop]; omega)
    · rw [List.take_of_length_le hge]
      obtain ⟨kept, hkept⟩ := ih (count - (String.utf8EncodeChar c).length)
      use c :: kept
      rcases hkept with heq | ⟨d, part, rest, hpart, hrest, hd, heq⟩
      · exact .inl (by rw [heq, encode_cons])
      · exact .inr ⟨d, part, rest, hpart, hrest, hd, by rw [heq, encode_cons, List.append_assoc]⟩

end Utf8
