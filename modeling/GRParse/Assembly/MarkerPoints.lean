import GRParse.Assembly.ListMarker

/-!
# The characters of a marker

A text is a row of characters as `decode_at` reads them, a byte that is part of none being one of
its own.  The scanners go from position to position; `Reads` says which characters stand between two
positions.
-/

namespace GRParse.ListMarker

open Chunking List

/-! ### Characters -/

/-- The characters that the loop of `count_code_points` goes through, after the bytes that belong to
the character before. -/
def pointsFrom : ℕ → List UInt8 → List CodePoint
  | _, [] => []
  | 0, lead :: rest =>
    decodeAt (lead :: rest) :: pointsFrom ((decodeAt (lead :: rest)).length - 1) rest
  | skip + 1, _ :: rest => pointsFrom skip rest

/-- The characters from a position on. -/
def pointsAt (text : List UInt8) (position : ℕ) : List CodePoint :=
  pointsFrom 0 (text.drop position)

/-- The bytes of some characters. -/
def width (points : List CodePoint) : ℕ :=
  (points.map CodePoint.length).sum

@[simp]
theorem width_nil : width [] = 0 := rfl

@[simp]
theorem width_cons (point : CodePoint) (points : List CodePoint) :
  width (point :: points) = point.length + width points
  := by
  rw [width, map_cons, sum_cons, width]

@[simp]
theorem width_append (points others : List CodePoint) :
  width (points ++ others) = width points + width others
  := by
  rw [width, map_append, sum_append, width, width]

theorem countFrom_eq_length (skip : ℕ) (text : List UInt8) :
  countFrom skip text = (pointsFrom skip text).length
  := by
  induction text generalizing skip with
  | nil =>
    rw [countFrom, pointsFrom]
    rfl
  | cons lead rest ih =>
    cases skip with
    | zero => rw [countFrom, pointsFrom, ih, length_cons]
    | succ skip => exact ih skip

theorem pointsFrom_drop (skip : ℕ) (text : List UInt8) :
  pointsFrom skip text = pointsFrom 0 (text.drop skip)
  := by
  induction text generalizing skip with
  | nil => simp [pointsFrom]
  | cons lead rest ih =>
    cases skip with
    | zero => rfl
    | succ skip => exact ih skip

theorem length_decodeTail_pos {rest : List UInt8} {length bits smallest : ℕ} (h : 0 < length) :
  0 < (decodeTail rest length bits smallest).length
  := by
  rw [decodeTail]
  split
  · exact Nat.one_pos
  · split
    · exact Nat.one_pos
    · dsimp only
      split
      · exact Nat.one_pos
      · exact h

theorem length_decodeAt_pos (text : List UInt8) :
  0 < (decodeAt text).length
  := by
  rw [decodeAt.eq_def]
  split
  · exact Nat.one_pos
  · split_ifs
    · exact Nat.one_pos
    · exact length_decodeTail_pos (by decide)
    · exact length_decodeTail_pos (by decide)
    · exact length_decodeTail_pos (by decide)
    · exact Nat.one_pos

section

variable {text : List UInt8} {position : ℕ}

theorem pointsAt_of_le (h : text.length ≤ position) :
  pointsAt text position = []
  := by
  rw [pointsAt, drop_eq_nil_of_le h, pointsFrom]

theorem pointsAt_of_lt (h : position < text.length) :
  pointsAt text position = decodeAt (text.drop position) ::
    pointsAt text (position + (decodeAt (text.drop position)).length)
  := by
  have hpos := length_decodeAt_pos (text.drop position)
  obtain ⟨lead, rest, hdrop⟩ := exists_cons_of_ne_nil
    (drop_eq_nil_iff.not.mpr (by omega : ¬ text.length ≤ position))
  rw [pointsAt, pointsAt, ← drop_drop, hdrop, pointsFrom, pointsFrom_drop]
  rw [hdrop] at hpos
  obtain ⟨length, hlength⟩ : ∃ length, (decodeAt (lead :: rest)).length = length + 1 :=
    ⟨(decodeAt (lead :: rest)).length - 1, by omega⟩
  rw [hlength, Nat.add_sub_cancel, drop_succ_cons]

/-- The first character from a position on. -/
theorem pointsAt_eq_cons {point : CodePoint} {rest : List CodePoint}
    (h : pointsAt text position = point :: rest) :
  position < text.length ∧ decodeAt (text.drop position) = point ∧
    pointsAt text (position + point.length) = rest
  := by
  rcases Nat.lt_or_ge position text.length with hlt | hge
  · rw [pointsAt_of_lt hlt] at h
    obtain ⟨rfl, hrest⟩ := cons.inj h
    exact ⟨hlt, rfl, hrest⟩
  · rw [pointsAt_of_le hge] at h
    cases h

/-- Between two positions there are certain characters. -/
def Reads (text : List UInt8) (position : ℕ) (points : List CodePoint) (stop : ℕ) : Prop :=
  pointsAt text position = points ++ pointsAt text stop ∧ stop = position + width points

theorem Reads.nil : Reads text position [] position :=
  ⟨rfl, rfl⟩

theorem Reads.trans {points others : List CodePoint} {middle stop : ℕ}
    (h : Reads text position points middle) (h' : Reads text middle others stop) :
  Reads text position (points ++ others) stop
  := by
  obtain ⟨hpoints, rfl⟩ := h
  obtain ⟨hothers, rfl⟩ := h'
  refine ⟨by rw [hpoints, hothers, append_assoc], ?_⟩
  rw [width_append, Nat.add_assoc]

theorem reads_point (h : position < text.length) :
  Reads text position [decodeAt (text.drop position)]
    (position + (decodeAt (text.drop position)).length)
  := ⟨pointsAt_of_lt h, by simp⟩

/-- What the characters from a position on begin with is read there. -/
theorem reads_of_pointsAt {points rest : List CodePoint}
    (h : pointsAt text position = points ++ rest) :
  Reads text position points (position + width points) ∧
    pointsAt text (position + width points) = rest
  := by
  induction points generalizing position with
  | nil => exact ⟨.nil, h⟩
  | cons point points ih =>
    obtain ⟨hlt, rfl, hpoints⟩ := pointsAt_eq_cons h
    obtain ⟨hreads, hrest⟩ := ih hpoints
    rw [width_cons, ← Nat.add_assoc]
    exact ⟨(reads_point hlt).trans hreads, hrest⟩

/-! ### Single bytes -/

theorem decodeTail_value {rest : List UInt8} {length bits smallest : ℕ}
    (hsmallest : 0x80 ≤ smallest) :
  0x80 ≤ (decodeTail rest length bits smallest).value
  := by
  rw [decodeTail]
  split
  · decide
  · split
    · decide
    · dsimp only
      split
      case isTrue => decide
      case isFalse h =>
        have hge : smallest ≤ (rest.take (length - 1)).foldl addBits bits := by omega
        exact hsmallest.trans hge

/-- A character of ASCII is a byte. -/
theorem decodeAt_ascii {lead : UInt8} {rest : List UInt8}
    (h : (decodeAt (lead :: rest)).value < 0x80) :
  lead < 0x80 ∧ decodeAt (lead :: rest) = ⟨lead.toNat, 1⟩
  := by
  rw [decodeAt] at h ⊢
  split_ifs at h ⊢ with hascii htwo hthree hfour
  · exact ⟨hascii, rfl⟩
  · exact absurd h (decodeTail_value (by decide)).not_gt
  · exact absurd h (decodeTail_value (by decide)).not_gt
  · exact absurd h (decodeTail_value (by decide)).not_gt
  · exact absurd h (by decide)

/-- A byte of ASCII is a character. -/
theorem pointsAt_byte {byte : UInt8} (h : text[position]? = some byte) (hascii : byte < 0x80) :
  pointsAt text position = ⟨byte.toNat, 1⟩ :: pointsAt text (position + 1)
  := by
  have hlt := (List.getElem?_eq_some_iff.mp h).1
  have hdrop : text.drop position = byte :: text.drop (position + 1) := by
    rw [List.drop_eq_getElem_cons hlt, (List.getElem?_eq_some_iff.mp h).2]
  have hdecode : decodeAt (text.drop position) = ⟨byte.toNat, 1⟩ := by
    rw [hdrop, decodeAt, if_pos hascii]
  rw [pointsAt_of_lt hlt, hdecode]

/-- A character of ASCII stands at a position as a byte. -/
theorem byte_of_pointsAt {point : CodePoint} {rest : List CodePoint}
    (h : pointsAt text position = point :: rest) (hascii : point.value < 0x80) :
  ∃ byte, text[position]? = some byte ∧ byte < 0x80 ∧ point = ⟨byte.toNat, 1⟩ ∧
    pointsAt text (position + 1) = rest
  := by
  obtain ⟨hlt, rfl, hrest⟩ := pointsAt_eq_cons h
  have hdrop : text.drop position = text[position] :: text.drop (position + 1) :=
    drop_eq_getElem_cons hlt
  rw [hdrop] at hascii hrest ⊢
  obtain ⟨hbyte, hpoint⟩ := decodeAt_ascii hascii
  rw [hpoint] at hrest
  exact ⟨_, getElem?_eq_getElem hlt, hbyte, hpoint, hrest⟩

/-- A position has a byte of a class just when it has a character of that class. -/
theorem any_byte_iff {class' : UInt8 → Bool} (hclass : ∀ byte, class' byte → byte < 0x80) :
  text[position]?.any class' ↔ ∃ byte, class' byte ∧
    pointsAt text position = ⟨byte.toNat, 1⟩ :: pointsAt text (position + 1)
  := by
  constructor
  · intro h
    obtain ⟨byte, hbyte, hmem⟩ := (Option.any_eq_true _ _).mp h
    exact ⟨byte, hmem, pointsAt_byte hbyte (hclass byte hmem)⟩
  · rintro ⟨byte, hmem, hpoints⟩
    obtain ⟨other, hother, -, heq, -⟩ := byte_of_pointsAt hpoints (hclass byte hmem)
    rw [hother, Option.any_some]
    have hbyte : byte = other := UInt8.toNat_inj.mp (congrArg CodePoint.value heq)
    rwa [← hbyte]

end

end GRParse.ListMarker
