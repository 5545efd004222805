import GRParse.Assembly.MarkerPoints
import GRParse.Lib.Regex

/-!
# The patterns of numbered markers

Each numbered marker is what a regular expression spells, and its scanner goes on as long as it can.
A marker is followed by white space, which none of the scanners goes over; so the scanner stops where
the marker does, and finds one just when backtracking would.
-/

namespace GRParse.ListMarker

open Chunking Regexes List

/-! ### Classes -/

/-- A byte as a character. -/
def byteLit (byte : UInt8) : Language ℕ :=
  lit byte.toNat

def kDigit : Language ℕ :=
  symbol isDecimal

def isLowerPoint (value : ℕ) : Bool :=
  0x61 ≤ value && value ≤ 0x7A

def isUpperPoint (value : ℕ) : Bool :=
  0x41 ≤ value && value ≤ 0x5A

def isLetterPoint (value : ℕ) : Bool :=
  isLowerPoint value || isUpperPoint value

def isRomanPoint (roman : List UInt8) (value : ℕ) : Bool :=
  value ∈ roman.map UInt8.toNat

/-! ### Expressions -/

/-- `\d+(?:\.\d+)+\.?` -/
def dottedOutlineRegex : Language ℕ :=
  plus kDigit * (plus (byteLit 0x2E * plus kDigit) * opt (byteLit 0x2E))

/-- `\d+\.?[a-zA-Z]` before a closing byte. -/
def numberLetterRegex (close : UInt8) : Language ℕ :=
  plus kDigit * (opt (byteLit 0x2E) * (symbol isLetterPoint * byteLit close))

/-- The expressions of the numbered patterns. -/
def kNumberedRegexes : List (Language ℕ) :=
  [dottedOutlineRegex,
    numberLetterRegex 0x2E,
    numberLetterRegex 0x29,
    byteLit 0x28 * numberLetterRegex 0x29,
    plus kDigit * byteLit 0x2E,
    plus kDigit * byteLit 0x29,
    byteLit 0x28 * (plus kDigit * byteLit 0x29),
    byteLit 0x5B * (plus kDigit * byteLit 0x5D),
    plus (symbol (isRomanPoint kLowerRoman)) * byteLit 0x2E,
    plus (symbol (isRomanPoint kUpperRoman)) * byteLit 0x2E,
    symbol isLowerPoint * byteLit 0x2E,
    symbol isUpperPoint * byteLit 0x2E,
    symbol isLowerPoint * byteLit 0x29,
    symbol isUpperPoint * byteLit 0x29]

/-- `^(marker)\s(.+)`: a match with the marker up to a position.  The content begins with a character
that the dot takes. -/
def Matched (dot : ℕ → Bool) (marker : Language ℕ) (text : List UInt8) (stop : ℕ) : Prop :=
  ∃ points separator first content, Reads text 0 points stop ∧
    points.map CodePoint.value ∈ marker ∧
    pointsAt text stop = separator :: first :: content ∧
    isSpacePoint separator.value ∧ dot first.value

/-- The first of some expressions that has a match at all has one with the marker up to a
position. -/
def FirstMatch (dot : ℕ → Bool) (markers : List (Language ℕ)) (text : List UInt8) (stop : ℕ) :
    Prop :=
  ∃ before marker after, markers = before ++ marker :: after ∧ Matched dot marker text stop ∧
    ∀ other ∈ before, ∀ position, ¬ Matched dot other text position

/-! ### Scanners -/

/-- The white space characters are no digits. -/
theorem isDecimal_of_isSpacePoint {value : ℕ} (h : isSpacePoint value) :
  isDecimal value = false
  := by
  have hmem : value ∈ [0x09, 0x0A, 0x0B, 0x0C, 0x0D, 0x1C, 0x1D, 0x1E, 0x1F, 0x20, 0x85, 0xA0,
      0x1680, 0x2000, 0x2001, 0x2002, 0x2003, 0x2004, 0x2005, 0x2006, 0x2007, 0x2008, 0x2009,
      0x200A, 0x2028, 0x2029, 0x202F, 0x205F, 0x3000] := by
    simp only [isSpacePoint, Bool.or_eq_true, Bool.and_eq_true, decide_eq_true_eq] at h
    simp only [mem_cons, not_mem_nil, or_false]
    omega
  have hall : ∀ value ∈ [0x09, 0x0A, 0x0B, 0x0C, 0x0D, 0x1C, 0x1D, 0x1E, 0x1F, 0x20, 0x85, 0xA0,
      0x1680, 0x2000, 0x2001, 0x2002, 0x2003, 0x2004, 0x2005, 0x2006, 0x2007, 0x2008, 0x2009,
      0x200A, 0x2028, 0x2029, 0x202F, 0x205F, 0x3000], isDecimal value = false := by
    decide
  exact hall value hmem

/-- A scanner finds what an expression spells, up to a character at which it has to stop. -/
def Scans (text : List UInt8) (scan : ℕ → Option ℕ) (marker : Language ℕ) (goesOn : ℕ → Bool) :
    Prop :=
  ∀ position stop, scan position = some stop ↔ ∃ points, Reads text position points stop ∧
    points.map CodePoint.value ∈ marker ∧
    ∀ point ∈ (pointsAt text stop).head?, goesOn point.value = false

section

variable {text : List UInt8} {position stop : ℕ}

/-- The characters of a class at the front. -/
def runIn (class' : ℕ → Bool) (points : List CodePoint) : List CodePoint :=
  points.takeWhile fun point => class' point.value

section

variable {class' : ℕ → Bool} {point : CodePoint} {points rest : List CodePoint}

theorem runIn_cons_of_pos (h : class' point.value) :
  runIn class' (point :: rest) = point :: runIn class' rest
  := by
  simp [runIn, h]

theorem runIn_cons_of_neg (h : ¬ class' point.value) :
  runIn class' (point :: rest) = []
  := by
  simp [runIn, h]

theorem runIn_eq (hpoints : ∀ point ∈ points, class' point.value)
    (hrest : ∀ point ∈ rest.head?, class' point.value = false) :
  runIn class' (points ++ rest) = points
  := by
  rw [runIn, takeWhile_append_of_pos hpoints]
  cases rest with
  | nil => exact append_nil _
  | cons point rest =>
    rw [takeWhile_cons_of_neg (by simp [hrest point rfl]), append_nil]

/-- A run and what is behind it. -/
theorem runIn_split (class' : ℕ → Bool) (points : List CodePoint) :
  ∃ rest, points = runIn class' points ++ rest ∧
    (∀ point ∈ runIn class' points, class' point.value) ∧
    ∀ point ∈ rest.head?, class' point.value = false
  := by
  induction points with
  | nil => exact ⟨[], rfl, by simp [runIn], by simp⟩
  | cons point points ih =>
    by_cases h : class' point.value
    · obtain ⟨rest, hsplit, hrun, hrest⟩ := ih
      rw [runIn_cons_of_pos h]
      refine ⟨rest, ?_, forall_mem_cons.mpr ⟨h, hrun⟩, hrest⟩
      rw [cons_append, ← hsplit]
    · rw [runIn_cons_of_neg h]
      refine ⟨point :: points, rfl, by simp, ?_⟩
      rintro other hother
      obtain rfl := Option.some.inj hother
      simpa using h

end

variable {scan : ℕ → Option ℕ}

/-- A run that takes all characters of a class. -/
theorem scans_of_run {class' : ℕ → Bool} (h : ∀ position, scan position =
      if runIn class' (pointsAt text position) = [] then none
      else some (position + width (runIn class' (pointsAt text position)))) :
  Scans text scan (plus (symbol class')) class'
  := by
  intro position stop
  rw [h]
  constructor
  · intro hscan
    obtain ⟨rest, hsplit, hrun, hrest⟩ := runIn_split class' (pointsAt text position)
    split at hscan
    case isTrue => cases hscan
    case isFalse hne =>
      obtain rfl := Option.some.inj hscan
      obtain ⟨hreads, hbehind⟩ := reads_of_pointsAt hsplit
      refine ⟨_, hreads, mem_plus_symbol.mpr ⟨by simpa using hne, ?_⟩, ?_⟩
      · intro value hvalue
        obtain ⟨member, hmember, rfl⟩ := mem_map.mp hvalue
        exact hrun member hmember
      · rwa [hbehind]
  · rintro ⟨points, ⟨hpoints, rfl⟩, hmarker, hnext⟩
    obtain ⟨hne, hall⟩ := mem_plus_symbol.mp hmarker
    have hrun : runIn class' (pointsAt text position) = points := by
      rw [hpoints]
      apply runIn_eq _ hnext
      exact fun point hpoint => hall _ (mem_map_of_mem hpoint)
    rw [hrun, if_neg]
    simpa using hne

/-- `digits` stop where the run of digits does. -/
theorem digitsEnd_eq (position : ℕ) :
  digitsEnd text position =
    position + width (runIn isDecimal (pointsAt text position))
  := by
  fun_induction digitsEnd text position with
  | case1 position h ih =>
    have hlt := lt_of_digitLength h
    rw [digitLength] at h ih
    split at h
    case isFalse => exact absurd rfl h
    case isTrue hdigit =>
      rw [if_pos hdigit] at ih
      rw [pointsAt_of_lt hlt, runIn_cons_of_pos hdigit.2, width_cons, ← Nat.add_assoc, ← ih,
        digitLength, if_pos hdigit]
  | case2 position h =>
    have hnone : ¬ (position < text.length ∧ isDecimal (decodeAt (text.drop position)).value) := by
      intro hdigit
      apply h
      rw [digitLength, if_pos hdigit]
      exact (length_decodeAt_pos _).ne'
    rcases Nat.lt_or_ge position text.length with hlt | hge
    · rw [pointsAt_of_lt hlt, runIn_cons_of_neg fun hdigit => hnone ⟨hlt, hdigit⟩]
      rfl
    · rw [pointsAt_of_le hge]
      rfl

theorem isDigitAt_iff :
  isDigitAt text position ↔ ∃ point rest, pointsAt text position = point :: rest ∧
    isDecimal point.value
  := by
  have hpos := length_decodeAt_pos (text.drop position)
  rw [isDigitAt, decide_eq_true_eq, digitLength]
  constructor
  · intro h
    split at h
    case isFalse => exact absurd rfl h
    case isTrue hdigit => exact ⟨_, _, pointsAt_of_lt hdigit.1, hdigit.2⟩
  · rintro ⟨point, rest, hpoints, hdigit⟩
    obtain ⟨hlt, rfl, -⟩ := pointsAt_eq_cons hpoints
    rw [if_pos ⟨hlt, hdigit⟩]
    exact hpos.ne'

theorem scans_digits :
  Scans text (digits text) (plus kDigit) isDecimal
  := by
  apply scans_of_run
  intro position
  rw [digits, digitsEnd_eq]
  cases hpoints : pointsAt text position with
  | nil =>
    have hnone : ¬ isDigitAt text position := by
      rw [isDigitAt_iff]
      rintro ⟨point, rest, h, -⟩
      rw [hpoints] at h
      cases h
    rw [if_neg hnone, if_pos]
    rfl
  | cons point rest =>
    by_cases hdigit : isDecimal point.value
    · rw [if_pos (isDigitAt_iff.mpr ⟨point, rest, hpoints, hdigit⟩), runIn_cons_of_pos hdigit,
        if_neg (cons_ne_nil _ _)]
    · have hnone : ¬ isDigitAt text position := by
        rw [isDigitAt_iff]
        rintro ⟨other, others, h, hother⟩
        obtain ⟨rfl, rfl⟩ := cons.inj (hpoints.symm.trans h)
        exact hdigit hother
      rw [if_neg hnone, runIn_cons_of_neg hdigit, if_pos rfl]

/-! ### Putting scanners together -/

/-- The words of a language begin with symbols of a kind. -/
def BeginsWith (marker : Language ℕ) (first : ℕ → Prop) : Prop :=
  ∀ word ∈ marker, ∃ value rest, word = value :: rest ∧ first value

theorem BeginsWith.mul {marker other : Language ℕ} {first : ℕ → Prop} (h : BeginsWith marker first) :
  BeginsWith (marker * other) first
  := by
  intro word hword
  obtain ⟨u, hu, v, -, rfl⟩ := Language.mem_mul.mp hword
  obtain ⟨value, rest, rfl, hvalue⟩ := h u hu
  exact ⟨value, rest ++ v, rfl, hvalue⟩

theorem beginsWith_symbol (class' : ℕ → Bool) :
  BeginsWith (symbol class') fun value => class' value
  := by
  rintro word ⟨value, hvalue, rfl⟩
  exact ⟨value, [], rfl, hvalue⟩

variable {points : List CodePoint}

/-- Characters that spell one word and then another. -/
theorem exists_append_of_mem_mul {marker other : Language ℕ}
    (h : points.map CodePoint.value ∈ marker * other) :
  ∃ u v, points = u ++ v ∧ u.map CodePoint.value ∈ marker ∧ v.map CodePoint.value ∈ other
  := by
  obtain ⟨a, ha, b, hb, heq⟩ := Language.mem_mul.mp h
  obtain ⟨u, v, rfl, rfl, rfl⟩ := map_eq_append_iff.mp heq.symm
  exact ⟨u, v, rfl, ha, hb⟩

/-- One scanner after another. -/
theorem Scans.bind {scan scan' : ℕ → Option ℕ} {marker marker' : Language ℕ}
    {goesOn goesOn' : ℕ → Bool} (h : Scans text scan marker goesOn)
    (h' : Scans text scan' marker' goesOn')
    (hfirst : BeginsWith marker' fun value => goesOn value = false) :
  Scans text (fun position => (scan position).bind scan') (marker * marker') goesOn'
  := by
  intro position stop
  rw [Option.bind_eq_some_iff]
  constructor
  · rintro ⟨middle, hscan, hscan'⟩
    obtain ⟨points, hreads, hpoints, -⟩ := (h position middle).mp hscan
    obtain ⟨points', hreads', hpoints', hstop⟩ := (h' middle stop).mp hscan'
    refine ⟨points ++ points', hreads.trans hreads', ?_, hstop⟩
    rw [map_append]
    exact Language.append_mem_mul hpoints hpoints'
  · rintro ⟨points, ⟨hpoints, rfl⟩, hmem, hstop⟩
    obtain ⟨u, v, rfl, hu, hv⟩ := exists_append_of_mem_mul hmem
    rw [append_assoc] at hpoints
    obtain ⟨hreads, hbehind⟩ := reads_of_pointsAt hpoints
    refine ⟨position + width u, (h _ _).mpr ⟨u, hreads, hu, ?_⟩, (h' _ _).mpr ⟨v, ?_, hv, hstop⟩⟩
    · intro point hpoint
      rw [hbehind] at hpoint
      obtain ⟨value, rest, heq, hvalue⟩ := hfirst _ hv
      obtain ⟨first, others, rfl, rfl, -⟩ := map_eq_cons_iff.mp heq
      obtain rfl := Option.some.inj hpoint
      exact hvalue
    · exact ⟨hbehind, by rw [width_append, Nat.add_assoc]⟩

/-- A scanner for a byte of a class. -/
theorem scans_any {class' : UInt8 → Bool} {points : ℕ → Bool} {scan : ℕ → Option ℕ}
    (hscan : ∀ position, scan position =
      if text[position]?.any class' then some (position + 1) else none)
    (hclass : ∀ byte, class' byte → byte < 0x80)
    (hpoints : ∀ value, points value ↔ ∃ byte : UInt8, class' byte ∧ byte.toNat = value) :
  Scans text scan (symbol points) fun _ => false
  := by
  intro position stop
  rw [hscan]
  constructor
  · intro h
    split at h
    case isFalse => cases h
    case isTrue hbyte =>
      obtain rfl := Option.some.inj h
      obtain ⟨byte, hmem, hread⟩ := (any_byte_iff hclass).mp hbyte
      refine ⟨[⟨byte.toNat, 1⟩], ⟨hread, by simp⟩, ?_, by simp⟩
      exact ⟨byte.toNat, (hpoints _).mpr ⟨byte, hmem, rfl⟩, rfl⟩
  · rintro ⟨read, ⟨hread, rfl⟩, ⟨value, hvalue, heq⟩, -⟩
    obtain ⟨point, rfl, rfl⟩ := map_eq_singleton_iff.mp heq
    obtain ⟨byte, hmem, hbyte⟩ := (hpoints _).mp hvalue
    have hascii : byte.toNat < 0x80 := hclass byte hmem
    obtain ⟨other, -, -, rfl, -⟩ := byte_of_pointsAt hread (by omega)
    obtain rfl : byte = other := UInt8.toNat_inj.mp hbyte
    rw [if_pos]
    · simp
    · exact (any_byte_iff hclass).mpr ⟨byte, hmem, by simpa using hread⟩

/-- A scanner for a certain byte. -/
theorem scans_char {byte : UInt8} (hascii : byte < 0x80) :
  Scans text (fun position => if isCharAt text position byte then some (position + 1) else none)
    (byteLit byte) fun _ => false
  := by
  apply @scans_any text (fun other => decide (other = byte)) (fun value => decide (value = byte.toNat))
  · intro position
    congr 1
    simp [isCharAt, Option.any_eq_true]
  · intro other hother
    rw [of_decide_eq_true hother]
    exact hascii
  · intro value
    simp [eq_comm]

/-- A range of ASCII. -/
theorem scans_range {low high : ℕ} (hhigh : high < 0x80) (hscan : ∀ position, scan position =
      if text[position]?.any fun byte => low ≤ byte.toNat && byte.toNat ≤ high then
        some (position + 1) else none) :
  Scans text scan (symbol fun value => low ≤ value && value ≤ high) fun _ => false
  := by
  apply scans_any hscan
  · intro byte hbyte
    simp only [Bool.and_eq_true, decide_eq_true_eq] at hbyte
    have hlt : byte.toNat < 0x80 := by omega
    exact hlt
  · intro value
    constructor
    · intro hvalue
      simp only [Bool.and_eq_true, decide_eq_true_eq] at hvalue
      have hbyte : (UInt8.ofNat value).toNat = value := by
        rw [UInt8.toNat_ofNat']
        omega
      exact ⟨UInt8.ofNat value, by simpa [hbyte] using hvalue, hbyte⟩
    · rintro ⟨byte, hbyte, rfl⟩
      exact hbyte

theorem scans_lower :
  Scans text (fun position => if isLowerAt text position then some (position + 1) else none)
    (symbol isLowerPoint) fun _ => false
  := scans_range (by decide) fun _ => rfl

theorem scans_upper :
  Scans text (fun position => if isUpperAt text position then some (position + 1) else none)
    (symbol isUpperPoint) fun _ => false
  := scans_range (by decide) fun _ => rfl

theorem scans_letter :
  Scans text (fun position => if isLetterAt text position then some (position + 1) else none)
    (symbol isLetterPoint) fun _ => false
  := by
  have hbyte : ∀ value, isLetterPoint value → (UInt8.ofNat value).toNat = value := by
    intro value hvalue
    simp only [isLetterPoint, isLowerPoint, isUpperPoint, Bool.or_eq_true, Bool.and_eq_true,
      decide_eq_true_eq] at hvalue
    rw [UInt8.toNat_ofNat']
    omega
  apply @scans_any text (fun byte => isLetterPoint byte.toNat)
  · intro position
    congr 1
    rw [isLetterAt, isLowerAt, isUpperAt]
    cases text[position]? <;> rfl
  · intro byte hmem
    simp only [isLetterPoint, isLowerPoint, isUpperPoint, Bool.or_eq_true, Bool.and_eq_true,
      decide_eq_true_eq] at hmem
    have hlt : byte.toNat < 0x80 := by omega
    exact hlt
  · intro value
    constructor
    · intro hvalue
      exact ⟨UInt8.ofNat value, by rwa [hbyte value hvalue], hbyte value hvalue⟩
    · rintro ⟨byte, hmem, rfl⟩
      exact hmem

/-- A closing byte behind a scanner. -/
theorem Scans.thenChar {scan : ℕ → Option ℕ} {marker : Language ℕ} {goesOn : ℕ → Bool}
    {close : UInt8} (h : Scans text scan marker goesOn) (hascii : close < 0x80)
    (hstop : goesOn close.toNat = false) :
  Scans text (fun position => thenChar text (scan position) close) (marker * byteLit close)
    fun _ => false
  := by
  apply h.bind (scans_char hascii)
  intro word hword
  exact ⟨close.toNat, [], mem_lit.mp hword, hstop⟩

/-- An opening byte before a scanner. -/
theorem Scans.afterChar {marker : Language ℕ} {goesOn : ℕ → Bool} {start : UInt8}
    (h : Scans text scan marker goesOn) (hascii : start < 0x80)
    (hne : BeginsWith marker fun _ => True) :
  Scans text
    (fun position => if isCharAt text position start then scan (position + 1) else none)
    (byteLit start * marker) goesOn
  := by
  have hbind := (@scans_char text _ hascii).bind h fun word hword => by
    obtain ⟨value, rest, hword, -⟩ := hne word hword
    exact ⟨value, rest, hword, rfl⟩
  intro position stop
  rw [← hbind position stop]
  dsimp only
  split <;> rfl

/-- A byte that may be left out, before what does not begin with it. -/
theorem Scans.afterOpt {scan : ℕ → Option ℕ} {marker : Language ℕ} {goesOn : ℕ → Bool}
    {start : UInt8} (h : Scans text scan marker goesOn) (hascii : start < 0x80)
    (hne : BeginsWith marker fun value => value ≠ start.toNat) :
  Scans text
    (fun position => if isCharAt text position start then scan (position + 1) else scan position)
    (opt (byteLit start) * marker) goesOn
  := by
  intro position stop
  have hafter := h.afterChar hascii
    (fun word hword => by
      obtain ⟨value, rest, hword, -⟩ := hne word hword
      exact ⟨value, rest, hword, trivial⟩) position stop
  have hmem : ∀ word, word ∈ opt (byteLit start) * marker ↔
      word ∈ byteLit start * marker ∨ word ∈ marker := by
    intro word
    rw [opt, add_mul, one_mul, Language.mem_add]
  simp only [hmem, or_and_right, and_or_left, exists_or, ← hafter, ← h position stop]
  by_cases hchar : isCharAt text position start
  case neg => simp [hchar]
  case pos =>
    rw [if_pos hchar, if_pos hchar]
    refine (or_iff_left fun hscan => ?_).symm
    obtain ⟨points, hreads, hpoints, -⟩ := (h position stop).mp hscan
    obtain ⟨value, rest, heq, hvalue⟩ := hne _ hpoints
    obtain ⟨first, others, rfl, rfl, -⟩ := map_eq_cons_iff.mp heq
    have hbyte : text[position]? = some start := of_decide_eq_true hchar
    have hfirst := (pointsAt_byte hbyte hascii).symm.trans hreads.1
    exact hvalue (congrArg CodePoint.value (cons.inj hfirst).1).symm

/-! ### The scanners of the source -/

/-- The bytes of a run of ASCII are its characters. -/
theorem width_run {set : List UInt8} (hascii : ∀ byte ∈ set, byte < 0x80) (position : ℕ) :
  ((text.drop position).takeWhile (· ∈ set)).length =
    width (runIn (isRomanPoint set) (pointsAt text position))
  := by
  induction hleft : text.length - position using Nat.strong_induction_on generalizing position with
  | _ left ih =>
    rcases Nat.lt_or_ge position text.length with hlt | hge
    · have hdrop : text.drop position = text[position] :: text.drop (position + 1) :=
        drop_eq_getElem_cons hlt
      by_cases hmem : text[position] ∈ set
      · have hpoints := pointsAt_byte (getElem?_eq_getElem hlt) (hascii _ hmem)
        rw [hdrop, takeWhile_cons_of_pos (by simpa using hmem), length_cons, hpoints,
          runIn_cons_of_pos, width_cons, ih _ (by omega) (position + 1) rfl, Nat.add_comm]
        simpa [isRomanPoint] using ⟨_, hmem, rfl⟩
      · rw [hdrop, takeWhile_cons_of_neg (by simpa using hmem), pointsAt_of_lt hlt,
          runIn_cons_of_neg]
        · rfl
        · intro hroman
          simp only [isRomanPoint, decide_eq_true_eq, mem_map] at hroman
          obtain ⟨byte, hbyte, hvalue⟩ := hroman
          have hbyteLt : byte.toNat < 0x80 := hascii byte hbyte
          obtain ⟨other, hother, -, heq, -⟩ := byte_of_pointsAt (pointsAt_of_lt hlt) (by omega)
          rw [heq] at hvalue
          obtain rfl := UInt8.toNat_inj.mp hvalue
          rw [getElem?_eq_getElem hlt] at hother
          exact hmem (Option.some.inj hother ▸ hbyte)
    · rw [drop_eq_nil_of_le hge, pointsAt_of_le hge]
      rfl

theorem width_pos (h : points ≠ []) {class' : ℕ → Bool}
    (hpoints : points = runIn class' (pointsAt text position)) :
  0 < width points
  := by
  obtain ⟨point, rest, rfl⟩ := exists_cons_of_ne_nil h
  rcases Nat.lt_or_ge position text.length with hlt | hge
  · have hpos := length_decodeAt_pos (text.drop position)
    rw [pointsAt_of_lt hlt] at hpoints
    by_cases hmem : class' (decodeAt (text.drop position)).value
    · rw [runIn_cons_of_pos hmem] at hpoints
      obtain ⟨rfl, rfl⟩ := cons.inj hpoints
      rw [width_cons]
      omega
    · rw [runIn_cons_of_neg hmem] at hpoints
      cases hpoints
  · rw [pointsAt_of_le hge] at hpoints
    cases hpoints

theorem scans_runOf {set : List UInt8} (hascii : ∀ byte ∈ set, byte < 0x80) :
  Scans text (fun position => runOf text position set) (plus (symbol (isRomanPoint set)))
    (isRomanPoint set)
  := by
  apply scans_of_run
  intro position
  rw [runOf, width_run hascii]
  by_cases hnil : runIn (isRomanPoint set) (pointsAt text position) = []
  · rw [hnil]
    rfl
  · obtain ⟨count, hcount⟩ := Nat.exists_eq_add_one.mpr (width_pos hnil rfl)
    rw [if_neg hnil, hcount]
    rfl

/-- What `number_letter` looks for behind the digits. -/
theorem scans_letterClose {close : UInt8} (hascii : close < 0x80) :
  Scans text (fun position =>
      if isLetterAt text position then thenChar text (some (position + 1)) close else none)
    (symbol isLetterPoint * byteLit close) fun _ => false
  := by
  have h := (@scans_letter text).thenChar hascii rfl
  intro position stop
  rw [← h position stop]
  dsimp only
  split <;> rfl

theorem scans_numberLetter {close : UInt8} (hascii : close < 0x80) :
  Scans text (fun position => numberLetter text position close) (numberLetterRegex close)
    fun _ => false
  := by
  have hdot : ¬ isLetterPoint (0x2E : UInt8).toNat := by decide
  have hletters : ∀ value, isLetterPoint value → isDecimal value = false := by
    intro value hvalue
    simp only [isLetterPoint, isLowerPoint, isUpperPoint, Bool.or_eq_true, Bool.and_eq_true,
      decide_eq_true_eq] at hvalue
    have hall : ∀ n < 0x80, isLetterPoint n → isDecimal n = false := by decide +kernel
    apply hall value (by omega)
    simpa [isLetterPoint, isLowerPoint, isUpperPoint] using hvalue
  have hfirst := @BeginsWith.mul _ (byteLit close) _ (beginsWith_symbol isLetterPoint)
  have htail := @Scans.afterOpt text _ _ _ 0x2E (scans_letterClose hascii) (by decide)
    fun word hword => by
      obtain ⟨value, rest, rfl, hvalue⟩ := hfirst word hword
      refine ⟨value, rest, rfl, ?_⟩
      rintro rfl
      exact hdot hvalue
  have hbind := scans_digits.bind htail fun word hword => by
    obtain ⟨u, hu, v, hv, rfl⟩ := Language.mem_mul.mp hword
    rcases mem_opt.mp hu with hu | rfl
    · exact ⟨_, v, by rw [mem_lit.mp hu]; rfl, by decide⟩
    · obtain ⟨value, rest, rfl, hvalue⟩ := hfirst v hv
      exact ⟨value, rest, rfl, hletters value hvalue⟩
  intro position stop
  rw [numberLetterRegex, ← hbind position stop]
  dsimp only
  rw [numberLetter]
  apply iff_of_eq
  congr 2
  funext middle
  by_cases hchar : isCharAt text middle 0x2E <;> simp [hchar]

/-! ### Dotted outlines -/

/-- A group of an outline: a dot and digits. -/
theorem exists_group (h : points.map CodePoint.value ∈ byteLit 0x2E * plus kDigit) :
  ∃ dot digits, points = dot :: digits ∧ dot.value = 0x2E ∧ digits ≠ [] ∧
    ∀ digit ∈ digits, isDecimal digit.value
  := by
  obtain ⟨u, digits, rfl, hu, hdigits⟩ := exists_append_of_mem_mul h
  obtain ⟨dot, rfl, hdot⟩ := map_eq_singleton_iff.mp (mem_lit.mp hu)
  obtain ⟨hne, hall⟩ := mem_plus_symbol.mp hdigits
  exact ⟨dot, digits, rfl, hdot, by simpa using hne,
    fun digit hdigit => hall _ (mem_map_of_mem hdigit)⟩

theorem isCharAt_iff {byte : UInt8} (hascii : byte < 0x80) :
  isCharAt text position byte ↔
    ∃ point rest, pointsAt text position = point :: rest ∧ point.value = byte.toNat
  := by
  rw [isCharAt, decide_eq_true_eq]
  constructor
  · intro h
    exact ⟨_, _, pointsAt_byte h hascii, rfl⟩
  · rintro ⟨point, rest, hpoints, hvalue⟩
    have hlt : byte.toNat < 0x80 := hascii
    obtain ⟨other, hother, -, rfl, -⟩ := byte_of_pointsAt hpoints (by omega)
    rw [hother, UInt8.toNat_inj.mp hvalue]

/-- The groups that are found are groups. -/
theorem reads_outlineGroups (position groups : ℕ) :
  ∃ parts : List (List CodePoint),
    Reads text position parts.flatten (outlineGroups text position groups).1 ∧
    (outlineGroups text position groups).2 = groups + parts.length ∧
    ∀ part ∈ parts, part.map CodePoint.value ∈ byteLit 0x2E * plus kDigit
  := by
  fun_induction outlineGroups text position groups with
  | case1 position groups h ih =>
    obtain ⟨parts, hreads, hcount, hparts⟩ := ih
    have hbyte : text[position]? = some 0x2E := of_decide_eq_true h.1
    have hdigits : digits text (position + 1) = some (digitsEnd text (position + 1)) := if_pos h.2
    obtain ⟨run, hrun, hmem, -⟩ := (scans_digits _ _).mp hdigits
    have hdot : Reads text position [⟨0x2E, 1⟩] (position + 1) :=
      ⟨pointsAt_byte hbyte (by decide), rfl⟩
    refine ⟨(⟨0x2E, 1⟩ :: run) :: parts, (hdot.trans hrun).trans hreads, ?_, ?_⟩
    · rw [hcount, length_cons]
      omega
    · refine forall_mem_cons.mpr ⟨?_, hparts⟩
      exact Language.append_mem_mul (mem_lit.mpr rfl) hmem
  | case2 => exact ⟨[], .nil, rfl, by simp⟩

/-- Groups are found up to where no other one follows. -/
theorem outlineGroups_eq {parts : List (List CodePoint)} {rest : List CodePoint}
    (hparts : ∀ part ∈ parts, part.map CodePoint.value ∈ byteLit 0x2E * plus kDigit)
    (hdigit : ∀ point ∈ rest.head?, isDecimal point.value = false)
    (hgroup : ∀ dot point others, rest = dot :: point :: others → dot.value = 0x2E →
      isDecimal point.value = false) {position : ℕ} (groups : ℕ)
    (hread : pointsAt text position = parts.flatten ++ rest) :
  outlineGroups text position groups = (position + width parts.flatten, groups + parts.length)
  := by
  induction parts generalizing position groups with
  | nil =>
    rw [outlineGroups, dif_neg]
    · rfl
    · rintro ⟨hdot, hnext⟩
      have hbyte : text[position]? = some 0x2E := of_decide_eq_true hdot
      obtain ⟨point, others, hpoints, hpoint⟩ := isDigitAt_iff.mp hnext
      have hrest := (pointsAt_byte hbyte (by decide)).symm.trans hread
      rw [hpoints] at hrest
      rw [hgroup _ point others hrest.symm rfl] at hpoint
      cases hpoint
  | cons part parts ih =>
    obtain ⟨hpart, hothers⟩ := forall_mem_cons.mp hparts
    obtain ⟨dot, run, rfl, hdot, hne, hrun⟩ := exists_group hpart
    rw [flatten_cons, append_assoc, cons_append] at hread
    have hchar : isCharAt text position 0x2E :=
      (isCharAt_iff (by decide)).mpr ⟨dot, _, hread, hdot⟩
    obtain ⟨byte, hbyte, -, rfl, hbehind⟩ := byte_of_pointsAt hread (by omega)
    have hdigits : isDigitAt text (position + 1) := by
      obtain ⟨first, others, rfl⟩ := exists_cons_of_ne_nil hne
      exact isDigitAt_iff.mpr ⟨first, _, hbehind, hrun first mem_cons_self⟩
    have hnext : ∀ point ∈ (parts.flatten ++ rest).head?, isDecimal point.value = false := by
      cases parts with
      | nil => exact hdigit
      | cons next parts =>
        obtain ⟨hnext, -⟩ := forall_mem_cons.mp hothers
        obtain ⟨dot, others, rfl, hdot, -⟩ := exists_group hnext
        intro point hpoint
        obtain rfl := Option.some.inj hpoint
        rw [hdot]
        decide
    have hend : digitsEnd text (position + 1) = position + 1 + width run := by
      rw [digitsEnd_eq, hbehind, runIn_eq hrun hnext]
    obtain ⟨-, hlater⟩ := reads_of_pointsAt hbehind
    rw [outlineGroups, dif_pos ⟨hchar, hdigits⟩, hend, ih hothers (groups + 1) hlater]
    rw [flatten_cons, width_append, width_cons, length_cons]
    refine Prod.ext ?_ ?_
    · dsimp only
      omega
    · dsimp only
      omega

end

end GRParse.ListMarker
