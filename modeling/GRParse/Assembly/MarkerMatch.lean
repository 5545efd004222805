import GRParse.Assembly.MarkerPatterns
import Mathlib.Data.Bool.AllAny

/-!
# Markers and their expressions

`numbered_marker_end` finds the marker of the first expression that has a match at all, where the
dot takes any character.  What is split off a text is that marker and one character, so that nothing
of the text is lost.
-/

namespace GRParse.ListMarker

open Chunking Regexes List Option

/-! ### Dotted outlines -/

/-- Parts of an image are images of parts. -/
theorem exists_parts {α β : Type} {f : α → β} {l : List α} {words : List (List β)}
    (h : l.map f = words.flatten) :
  ∃ parts : List (List α), parts.flatten = l ∧ parts.map (List.map f) = words
  := by
  induction words generalizing l with
  | nil => exact ⟨[], (map_eq_nil_iff.mp h).symm, rfl⟩
  | cons word words ih =>
    obtain ⟨u, v, rfl, rfl, hv⟩ := map_eq_append_iff.mp h
    obtain ⟨parts, rfl, rfl⟩ := ih hv
    exact ⟨u :: parts, rfl, rfl⟩

section

variable {text : List UInt8} {stop : ℕ}

theorem dottedOutline_eq {position : ℕ} (h : digits text 0 = some position) :
  dottedOutline text =
    let (behind, groups) := outlineGroups text position 0
    if groups = 0 then none
    else if isCharAt text behind 0x2E then some (behind + 1) else some behind
  := by
  rw [dottedOutline, h, bind_some]
  rcases outlineGroups text position 0 with ⟨behind, groups⟩
  cases groups <;> rfl

theorem dottedOutline_reads (h : dottedOutline text = some stop) :
  ∃ points, Reads text 0 points stop ∧ points.map CodePoint.value ∈ dottedOutlineRegex
  := by
  obtain ⟨position, hdigits, -⟩ := bind_eq_some_iff.mp h
  obtain ⟨run, hrun, hnumber, -⟩ := (scans_digits 0 position).mp hdigits
  obtain ⟨parts, hparts, hcount, hgroups⟩ := @reads_outlineGroups text position 0
  rw [dottedOutline_eq hdigits] at h
  generalize outlineGroups text position 0 = found at h hparts hcount
  obtain ⟨behind, count⟩ := found
  dsimp only at h hparts hcount
  rw [Nat.zero_add] at hcount
  split at h
  case isTrue => cases h
  case isFalse hsome =>
    have hne : parts ≠ [] := by
      rintro rfl
      exact hsome hcount
    have hwords : parts.flatten.map CodePoint.value ∈ plus (byteLit 0x2E * plus kDigit) := by
      refine mem_plus.mpr ⟨parts.map (map CodePoint.value), by simpa using hne, ?_, ?_⟩
      · intro word hword
        obtain ⟨part, hpart, rfl⟩ := mem_map.mp hword
        exact hgroups part hpart
      · rw [map_flatten]
    split at h
    case isTrue hdot =>
      obtain rfl := some.inj h
      have hbyte : text[behind]? = some 0x2E := of_decide_eq_true hdot
      have hlast : Reads text behind [⟨0x2E, 1⟩] (behind + 1) :=
        ⟨pointsAt_byte hbyte (by decide), rfl⟩
      refine ⟨run ++ (parts.flatten ++ [⟨0x2E, 1⟩]), hrun.trans (hparts.trans hlast), ?_⟩
      rw [map_append, map_append]
      exact Language.append_mem_mul hnumber
        (Language.append_mem_mul hwords (mem_opt.mpr (.inl (mem_lit.mpr rfl))))
    case isFalse =>
      obtain rfl := some.inj h
      refine ⟨run ++ parts.flatten, hrun.trans hparts, ?_⟩
      rw [map_append]
      apply Language.append_mem_mul hnumber
      have h := Language.append_mem_mul hwords (mem_opt.mpr (.inr rfl) : [] ∈ opt (byteLit 0x2E))
      rwa [append_nil] at h

/-- An outline that white space follows is found. -/
theorem dottedOutline_of_reads {points : List CodePoint} {separator : CodePoint}
    {rest : List CodePoint} (hreads : Reads text 0 points stop)
    (hpoints : points.map CodePoint.value ∈ dottedOutlineRegex)
    (hrest : pointsAt text stop = separator :: rest) (hspace : isSpacePoint separator.value) :
  dottedOutline text = some stop
  := by
  obtain ⟨run, tail, rfl, hrun, htail⟩ := exists_append_of_mem_mul hpoints
  obtain ⟨groups, last, rfl, hgroups, hlast⟩ := exists_append_of_mem_mul htail
  obtain ⟨words, hne, hwords, hflatten⟩ := mem_plus.mp hgroups
  obtain ⟨parts, rfl, rfl⟩ := exists_parts hflatten
  have hparts : ∀ part ∈ parts, part.map CodePoint.value ∈ byteLit 0x2E * plus kDigit :=
    fun part hpart => hwords _ (mem_map_of_mem hpart)
  have hseparator : isDecimal separator.value = false := isDecimal_of_isSpacePoint hspace
  have hnodot : separator.value ≠ 0x2E := by
    intro heq
    rw [heq] at hspace
    exact absurd hspace (by decide)
  obtain ⟨hread, rfl⟩ := hreads
  rw [hrest, append_assoc, append_assoc] at hread
  obtain ⟨hrunReads, hbehind⟩ := reads_of_pointsAt hread
  obtain ⟨-, hlastRead⟩ := reads_of_pointsAt hbehind
  have hgroup : ∀ part ∈ parts, ∃ dot others, part = dot :: others ∧ dot.value = 0x2E := by
    intro part hpart
    obtain ⟨dot, others, heq, hdot, -⟩ := exists_group (hparts part hpart)
    exact ⟨dot, others, heq, hdot⟩
  obtain ⟨part, others, rfl⟩ := exists_cons_of_ne_nil
    (show parts ≠ [] by simpa using hne)
  have hdigits : digits text 0 = some (0 + width run) := by
    apply (scans_digits _ _).mpr
    refine ⟨run, hrunReads, hrun, ?_⟩
    rw [hbehind]
    obtain ⟨dot, tail, rfl, hdot⟩ := hgroup part mem_cons_self
    intro point hpoint
    obtain rfl := some.inj hpoint
    rw [hdot]
    decide
  rw [dottedOutline_eq hdigits]
  rcases mem_opt.mp hlast with hlast | hlast
  · obtain ⟨dot, rfl, hdot⟩ := map_eq_singleton_iff.mp (mem_lit.mp hlast)
    have hdotValue : dot.value = 0x2E := hdot
    have houtline := @outlineGroups_eq text _ (dot :: separator :: rest) hparts
      (by
        rintro point hpoint
        obtain rfl := some.inj hpoint
        rw [hdotValue]
        decide)
      (by
        intro first second tail heq _
        obtain ⟨-, hsecond⟩ := cons.inj heq
        obtain ⟨rfl, -⟩ := cons.inj hsecond
        exact hseparator)
      _ 0 hbehind
    have hchar := (isCharAt_iff (by decide)).mpr ⟨dot, _, hlastRead, hdot⟩
    obtain ⟨byte, -, -, rfl, -⟩ := byte_of_pointsAt hlastRead (by omega)
    rw [houtline]
    dsimp only
    rw [if_neg (by simp), if_pos hchar]
    simp [Nat.add_assoc]
  · obtain rfl := map_eq_nil_iff.mp hlast
    have houtline := @outlineGroups_eq text _ (separator :: rest) hparts
      (by
        rintro point hpoint
        obtain rfl := some.inj hpoint
        exact hseparator)
      (by
        intro first second tail heq hfirst
        obtain ⟨rfl, -⟩ := cons.inj heq
        exact absurd hfirst hnodot)
      _ 0 hbehind
    have hchar : ¬ isCharAt text (0 + width run + width (part :: others).flatten) 0x2E := by
      rw [isCharAt_iff (by decide)]
      rintro ⟨point, tail, hpoint, hvalue⟩
      rw [hlastRead] at hpoint
      obtain ⟨rfl, -⟩ := cons.inj hpoint
      exact hnodot hvalue
    rw [houtline]
    dsimp only
    rw [if_neg (by simp), if_neg hchar]
    simp

end

/-! ### Patterns and expressions -/

/-- Where white space follows, a pattern finds what an expression spells. -/
def Agrees (pattern : List UInt8 → Option ℕ) (marker : Language ℕ) : Prop :=
  ∀ text stop separator rest, pointsAt text stop = separator :: rest →
    isSpacePoint separator.value →
    (pattern text = some stop ↔
      ∃ points, Reads text 0 points stop ∧ points.map CodePoint.value ∈ marker)

/-- A scanner that goes over no white space. -/
theorem agrees_of_scans {scan : List UInt8 → ℕ → Option ℕ} {marker : Language ℕ}
    {goesOn : ℕ → Bool} (h : ∀ text, Scans text (scan text) marker goesOn)
    (hspace : ∀ value, isSpacePoint value → goesOn value = false) :
  Agrees (fun text => scan text 0) marker
  := by
  intro text stop separator rest hrest hseparator
  have hstops : ∀ point ∈ (pointsAt text stop).head?, goesOn point.value = false := by
    intro point hpoint
    rw [hrest] at hpoint
    obtain rfl := some.inj hpoint
    exact hspace _ hseparator
  dsimp only
  rw [h text 0 stop]
  simp only [and_iff_left hstops]

theorem agrees_dottedOutline :
  Agrees dottedOutline dottedOutlineRegex
  := by
  intro text stop separator rest hrest hspace
  constructor
  · exact dottedOutline_reads
  · rintro ⟨points, hreads, hpoints⟩
    exact dottedOutline_of_reads hreads hpoints hrest hspace

/-- A class of letters before a closing byte. -/
theorem agrees_letterClose {class' : ℕ → Bool} {isAt : List UInt8 → ℕ → Bool} {close : UInt8}
    (hascii : close < 0x80)
    (h : ∀ text, Scans text
      (fun position => if isAt text position then some (position + 1) else none)
      (symbol class') fun _ => false) :
  Agrees (fun text => if isAt text 0 then thenChar text (some 1) close else none)
    (symbol class' * byteLit close)
  := by
  have hscan := agrees_of_scans (fun text => (h text).thenChar hascii rfl) fun _ _ => rfl
  intro text stop separator rest hrest hspace
  rw [← hscan text stop separator rest hrest hspace]
  dsimp only
  split <;> rfl

theorem beginsWith_digits : BeginsWith (plus kDigit) fun value => isDecimal value := by
  intro word hword
  obtain ⟨hne, hall⟩ := mem_plus_symbol.mp hword
  obtain ⟨value, rest, rfl⟩ := List.exists_cons_of_ne_nil hne
  exact ⟨value, rest, rfl, hall value List.mem_cons_self⟩

theorem BeginsWith.any {marker : Language ℕ} {first : ℕ → Prop} (h : BeginsWith marker first) :
  BeginsWith marker fun _ => True
  := by
  intro word hword
  obtain ⟨value, rest, rfl, -⟩ := h word hword
  exact ⟨value, rest, rfl, trivial⟩

/-- Digits before a closing byte. -/
theorem scans_digitsClose {text : List UInt8} {close : UInt8} (hascii : close < 0x80)
    (hclose : isDecimal close.toNat = false) :
  Scans text (fun position => thenChar text (digits text position) close)
    (plus kDigit * byteLit close) fun _ => false
  := scans_digits.thenChar hascii hclose

/-- A class of bytes before a closing byte. -/
theorem scans_romanClose {text set : List UInt8} {close : UInt8} (hset : ∀ byte ∈ set, byte < 0x80)
    (hascii : close < 0x80) (hclose : isRomanPoint set close.toNat = false) :
  Scans text (fun position => thenChar text (runOf text position set) close)
    (plus (symbol (isRomanPoint set)) * byteLit close) fun _ => false
  := (scans_runOf hset).thenChar hascii hclose

/-- Each pattern of the source finds what its expression spells. -/
theorem agrees_kNumberedPatterns :
  List.Forall₂ Agrees kNumberedPatterns kNumberedRegexes
  := by
  have hany : ∀ value, isSpacePoint value → (fun _ => false) value = false := fun _ _ => rfl
  have hlower : ∀ byte ∈ kLowerRoman, byte < 0x80 := all_iff_forall_prop.mp rfl
  have hupper : ∀ byte ∈ kUpperRoman, byte < 0x80 := all_iff_forall_prop.mp rfl
  refine .cons agrees_dottedOutline ?_
  refine .cons (agrees_of_scans (fun _ => scans_numberLetter (by decide)) hany) ?_
  refine .cons (agrees_of_scans (fun _ => scans_numberLetter (by decide)) hany) ?_
  refine .cons (agrees_of_scans (fun _ => (scans_numberLetter (by decide)).afterChar (by decide)
    beginsWith_digits.mul.any) hany) ?_
  refine .cons (agrees_of_scans (fun _ => scans_digitsClose (by decide) (by decide)) hany) ?_
  refine .cons (agrees_of_scans (fun _ => scans_digitsClose (by decide) (by decide)) hany) ?_
  refine .cons (agrees_of_scans (fun _ => (scans_digitsClose (by decide) (by decide)).afterChar
    (by decide) beginsWith_digits.mul.any) hany) ?_
  refine .cons (agrees_of_scans (fun _ => (scans_digitsClose (by decide) (by decide)).afterChar
    (by decide) beginsWith_digits.mul.any) hany) ?_
  refine .cons (agrees_of_scans (fun _ => scans_romanClose hlower (by decide) (by decide)) hany) ?_
  refine .cons (agrees_of_scans (fun _ => scans_romanClose hupper (by decide) (by decide)) hany) ?_
  refine .cons (agrees_letterClose (by decide) fun _ => scans_lower) ?_
  refine .cons (agrees_letterClose (by decide) fun _ => scans_upper) ?_
  refine .cons (agrees_letterClose (by decide) fun _ => scans_lower) ?_
  refine .cons (agrees_letterClose (by decide) fun _ => scans_upper) ?_
  exact .nil

/-! ### The first match -/

section

variable {text : List UInt8} {stop : ℕ}

/-- A marker ends where a white space character and another one follow. -/
theorem separatesAt_iff :
  separatesAt text stop ↔ ∃ separator first content,
    pointsAt text stop = separator :: first :: content ∧ isSpacePoint separator.value
  := by
  simp only [separatesAt, Bool.and_eq_true, decide_eq_true_eq]
  constructor
  · rintro ⟨⟨hlt, hspace⟩, hcontent⟩
    have hpoints := pointsAt_of_lt hlt
    rw [pointsAt_of_lt hcontent] at hpoints
    exact ⟨_, _, _, hpoints, hspace⟩
  · rintro ⟨separator, first, content, hpoints, hspace⟩
    obtain ⟨hlt, rfl, hrest⟩ := pointsAt_eq_cons hpoints
    obtain ⟨hcontent, -, -⟩ := pointsAt_eq_cons hrest
    exact ⟨⟨hlt, hspace⟩, hcontent⟩

variable {pattern : List UInt8 → Option ℕ} {marker : Language ℕ}

/-- A pattern that a separator and content follow is a match of its expression. -/
theorem Agrees.filter_iff (h : Agrees pattern marker) :
  (pattern text).filter (separatesAt text) = some stop ↔ Matched (fun _ => true) marker text stop
  := by
  rw [filter_eq_some_iff, separatesAt_iff]
  constructor
  · rintro ⟨hpattern, separator, first, content, hrest, hspace⟩
    obtain ⟨points, hreads, hpoints⟩ := (h text stop separator _ hrest hspace).mp hpattern
    exact ⟨points, separator, first, content, hreads, hpoints, hrest, hspace, rfl⟩
  · rintro ⟨points, separator, first, content, hreads, hpoints, hrest, hspace, -⟩
    have hpattern := (h text stop separator _ hrest hspace).mpr ⟨points, hreads, hpoints⟩
    exact ⟨hpattern, separator, first, content, hrest, hspace⟩

variable {markers : List (Language ℕ)}

theorem firstMatch_cons {dot : ℕ → Bool} :
  FirstMatch dot (marker :: markers) text stop ↔ Matched dot marker text stop ∨
    (∀ position, ¬ Matched dot marker text position) ∧ FirstMatch dot markers text stop
  := by
  constructor
  · rintro ⟨before, found, after, hsplit, hfound, hbefore⟩
    cases before with
    | nil =>
      obtain ⟨rfl, -⟩ := cons.inj hsplit
      exact .inl hfound
    | cons first before =>
      obtain ⟨rfl, rfl⟩ := cons.inj hsplit
      obtain ⟨hfirst, hbefore⟩ := forall_mem_cons.mp hbefore
      exact .inr ⟨hfirst, before, found, after, rfl, hfound, hbefore⟩
  · rintro (hfound | ⟨hnone, before, found, after, rfl, hfound, hbefore⟩)
    · exact ⟨[], marker, markers, rfl, hfound, by simp⟩
    · exact ⟨marker :: before, found, after, rfl, hfound,
        forall_mem_cons.mpr ⟨hnone, hbefore⟩⟩

/-- The first pattern that is followed as a marker is the first match. -/
theorem findSome?_iff {patterns : List (List UInt8 → Option ℕ)}
    (h : List.Forall₂ Agrees patterns markers) :
  patterns.findSome? (fun pattern => (pattern text).filter (separatesAt text)) = some stop ↔
    FirstMatch (fun _ => true) markers text stop
  := by
  induction h with
  | nil =>
    constructor
    · intro h
      cases h
    · rintro ⟨before, marker, after, hsplit, -⟩
      cases before <;> cases hsplit
  | cons hagrees _ ih =>
    rw [firstMatch_cons, ← ih, ← hagrees.filter_iff, findSome?_cons]
    simp only [← hagrees.filter_iff]
    split
    case _ found hfound => simp [hfound]
    case _ hnone => simp [hnone]

/-- The markers of the matches, the other way round. -/
theorem forall_not_firstMatch_iff {dot : ℕ → Bool} :
  (∀ stop, ¬ FirstMatch dot markers text stop) ↔
    ∀ marker ∈ markers, ∀ stop, ¬ Matched dot marker text stop
  := by
  induction markers with
  | nil =>
    refine iff_of_true ?_ (by simp)
    rintro stop ⟨before, marker, after, hsplit, -⟩
    cases before <;> cases hsplit
  | cons marker markers ih =>
    simp only [firstMatch_cons, forall_mem_cons, not_or, not_and, ← ih]
    constructor
    · intro h
      have hnone := fun stop => (h stop).1
      exact ⟨hnone, fun stop => (h stop).2 hnone⟩
    · rintro ⟨hnone, hothers⟩ stop
      exact ⟨hnone stop, fun _ => hothers stop⟩

theorem numberedMarkerEnd_eq_some_iff :
  numberedMarkerEnd text = some stop ↔ FirstMatch (fun _ => true) kNumberedRegexes text stop
  := findSome?_iff agrees_kNumberedPatterns

theorem numberedMarkerEnd_eq_none_iff :
  numberedMarkerEnd text = none ↔
    ∀ marker ∈ kNumberedRegexes, ∀ stop, ¬ Matched (fun _ => true) marker text stop
  := by
  rw [← forall_not_firstMatch_iff, eq_none_iff_forall_ne_some]
  simp only [Ne, numberedMarkerEnd_eq_some_iff]

end

/-! ### What is split off -/

/-- A character that is well formed is read from its own bytes. -/
theorem decodeTail_take {rest : List UInt8} {length bits smallest n : ℕ}
    (h : (decodeTail rest length bits smallest).value ≠ 0xFFFD)
    (hn : (decodeTail rest length bits smallest).length ≤ n + 1) :
  decodeTail (rest.take n) length bits smallest = decodeTail rest length bits smallest
  := by
  rw [decodeTail] at h hn
  split at h
  case isTrue => exact absurd rfl h
  case isFalse hlong =>
    rw [if_neg hlong] at hn
    split at h
    case isTrue => exact absurd rfl h
    case isFalse hcontinued =>
      rw [if_neg hcontinued] at hn
      dsimp only at h hn
      split at h
      case isTrue => exact absurd rfl h
      case isFalse hvalue =>
        rw [if_neg hvalue] at hn
        have htake : (rest.take n).take (length - 1) = rest.take (length - 1) := by
          rw [take_take, Nat.min_eq_left (by dsimp only at hn; omega)]
        have hshort : ¬ (rest.take n).length + 1 < length := by
          rw [length_take]
          dsimp only at hn
          omega
        rw [decodeTail, decodeTail, htake, if_neg hshort, if_neg hlong]

theorem decodeAt_take {text : List UInt8} {n : ℕ} (h : (decodeAt text).value ≠ 0xFFFD)
    (hn : (decodeAt text).length ≤ n) :
  decodeAt (text.take n) = decodeAt text
  := by
  have hpos := length_decodeAt_pos text
  cases text with
  | nil => exact absurd rfl h
  | cons lead rest =>
    obtain ⟨n, rfl⟩ := Nat.exists_eq_add_one.mpr (hpos.trans_le hn)
    rw [take_succ_cons]
    simp only [decodeAt] at h hn ⊢
    split_ifs at h hn ⊢
    · rfl
    · exact decodeTail_take h hn
    · exact decodeTail_take h hn
    · exact decodeTail_take h hn
    · rfl

/-- The characters a text begins with are those of their bytes, where each is well formed. -/
theorem pointsFrom_take {text : List UInt8} {points rest : List CodePoint}
    (h : pointsFrom 0 text = points ++ rest) (hpoints : ∀ point ∈ points, point.value ≠ 0xFFFD) :
  pointsFrom 0 (text.take (width points)) = points
  := by
  induction points generalizing text with
  | nil => simp [pointsFrom]
  | cons point points ih =>
    obtain ⟨hpoint, hpoints⟩ := forall_mem_cons.mp hpoints
    have hread : pointsAt text 0 = point :: (points ++ rest) := h
    obtain ⟨hlt, hdecode, hrest⟩ := pointsAt_eq_cons hread
    rw [drop_zero] at hdecode
    rw [Nat.zero_add] at hrest
    have hpos := length_decodeAt_pos text
    have htake : 0 < (text.take (width (point :: points))).length := by
      rw [length_take, width_cons, ← hdecode]
      omega
    have hcut : decodeAt (text.take (width (point :: points))) = point := by
      rw [← hdecode] at hpoint ⊢
      apply decodeAt_take hpoint
      rw [width_cons]
      omega
    have hread := pointsAt_of_lt htake
    rw [drop_zero, hcut, Nat.zero_add, pointsAt, pointsAt, drop_zero, drop_take,
      width_cons, Nat.add_sub_cancel_left, ih hrest hpoints] at hread
    rw [width_cons, hread]

theorem avoids_byteLit {byte : UInt8} : Avoids (byteLit byte) 0xFFFD := by
  apply avoids_lit
  have hlt := byte.toNat_lt
  omega

theorem avoids_numberLetterRegex {close : UInt8} : Avoids (numberLetterRegex close) 0xFFFD := by
  have hdigit : Avoids kDigit 0xFFFD := avoids_symbol (by decide)
  have hletter : Avoids (symbol isLetterPoint) 0xFFFD := avoids_symbol (by decide)
  exact hdigit.plus.mul (avoids_byteLit.opt.mul (hletter.mul avoids_byteLit))

/-- No numbered marker has a character that is not well formed. -/
theorem avoids_kNumberedRegexes {marker : Language ℕ} (h : marker ∈ kNumberedRegexes) :
  Avoids marker 0xFFFD
  := by
  have hdigits : Avoids (plus kDigit) 0xFFFD := (avoids_symbol (by decide)).plus
  have houtline : Avoids dottedOutlineRegex 0xFFFD :=
    hdigits.mul ((avoids_byteLit.mul hdigits).plus.mul avoids_byteLit.opt)
  have hlowerRoman : Avoids (symbol (isRomanPoint kLowerRoman)) 0xFFFD := avoids_symbol (by decide)
  have hupperRoman : Avoids (symbol (isRomanPoint kUpperRoman)) 0xFFFD := avoids_symbol (by decide)
  have hlower : Avoids (symbol isLowerPoint) 0xFFFD := avoids_symbol (by decide)
  have hupper : Avoids (symbol isUpperPoint) 0xFFFD := avoids_symbol (by decide)
  simp only [kNumberedRegexes, mem_cons, not_mem_nil, or_false] at h
  rcases h with rfl | rfl | rfl | rfl | rfl | rfl | rfl | rfl | rfl | rfl | rfl | rfl | rfl | rfl
  · exact houtline
  · exact avoids_numberLetterRegex
  · exact avoids_numberLetterRegex
  · exact avoids_byteLit.mul avoids_numberLetterRegex
  · exact hdigits.mul avoids_byteLit
  · exact hdigits.mul avoids_byteLit
  · exact avoids_byteLit.mul (hdigits.mul avoids_byteLit)
  · exact avoids_byteLit.mul (hdigits.mul avoids_byteLit)
  · exact hlowerRoman.plus.mul avoids_byteLit
  · exact hupperRoman.plus.mul avoids_byteLit
  · exact hlower.mul avoids_byteLit
  · exact hupper.mul avoids_byteLit
  · exact hlower.mul avoids_byteLit
  · exact hupper.mul avoids_byteLit

section

variable {orig : List UInt8} {position : ℕ} {enumerated : Bool}

/-- The marker of a text is made of well formed characters. -/
theorem reads_markerEnd (h : markerEnd orig = some (position, enumerated)) :
  ∃ points, Reads orig 0 points position ∧ ∀ point ∈ points, point.value ≠ 0xFFFD
  := by
  unfold markerEnd at h
  dsimp only at h
  split at h
  case isTrue hbullet =>
    obtain ⟨rfl, -⟩ := Prod.mk.inj (some.inj h)
    have hne : (decodeAt orig).value ≠ 0xFFFD := by
      intro heq
      have := hbullet.1
      rw [heq] at this
      exact absurd this (by decide)
    have hlt : 0 < orig.length := by
      apply length_pos_of_ne_nil
      rintro rfl
      exact hne rfl
    have hreads := reads_point hlt
    rw [drop_zero, Nat.zero_add] at hreads
    exact ⟨_, hreads, forall_mem_singleton.mpr hne⟩
  case isFalse =>
    obtain ⟨found, hfound, heq⟩ := map_eq_some_iff.mp h
    obtain ⟨rfl, -⟩ := Prod.mk.inj heq
    obtain ⟨before, marker, after, hsplit, hmatched, -⟩ := numberedMarkerEnd_eq_some_iff.mp hfound
    obtain ⟨points, separator, first, content, hreads, hpoints, -⟩ := hmatched
    refine ⟨points, hreads, ?_⟩
    intro point hpoint heq
    have hmarker : marker ∈ kNumberedRegexes := by simp [hsplit]
    apply avoids_kNumberedRegexes hmarker _ hpoints
    rw [← heq]
    exact mem_map_of_mem hpoint

end

/-- What a split leaves of any text: the marker, one white space character, and the text behind it.
The characters before the text are counted. -/
theorem splitListMarker_parts {orig : List UInt8} {split : ListMarkerSplit}
    (h : splitListMarker orig = some split) :
  ∃ separator point, orig = split.marker ++ separator ++ split.text ∧
    pointsFrom 0 separator = [point] ∧ isSpacePoint point.value ∧
    split.prefixCodePoints = countCodePoints (split.marker ++ separator)
  := by
  rw [splitListMarker] at h
  split at h
  case isTrue => cases h
  case isFalse =>
    obtain ⟨⟨position, enumerated⟩, hend, rfl⟩ := map_eq_some_iff.mp h
    obtain ⟨points, ⟨hpoints, rfl⟩, hformed⟩ := reads_markerEnd hend
    obtain ⟨separator, first, content, hrest, hspace⟩ :=
      separatesAt_iff.mp (separatesAt_of_markerEnd hend)
    rw [Nat.zero_add] at hpoints hrest ⊢
    obtain ⟨-, hseparator, -⟩ := pointsAt_eq_cons hrest
    have hne : separator.value ≠ 0xFFFD := by
      intro heq
      rw [heq] at hspace
      exact absurd hspace (by decide)
    rw [pointsAt, drop_zero, hrest] at hpoints
    have hmarker := pointsFrom_take hpoints hformed
    have hone : pointsFrom 0 ((orig.drop (width points)).take separator.length) = [separator] := by
      have h := @pointsFrom_take _ [separator] _ hrest (forall_mem_singleton.mpr hne)
      rwa [width_cons, width_nil, Nat.add_zero] at h
    have hboth : pointsFrom 0 (orig.take (width points + separator.length)) =
        points ++ [separator] := by
      have h := @pointsFrom_take orig (points ++ [separator]) (first :: content)
        (by rw [hpoints, append_assoc]; rfl)
        (forall_mem_append.mpr ⟨hformed, forall_mem_singleton.mpr hne⟩)
      rwa [width_append, width_cons, width_nil, Nat.add_zero] at h
    refine ⟨_, separator, ?_, hone, hspace, ?_⟩
    · dsimp only
      rw [hseparator, ← take_add, take_append_drop]
    · dsimp only
      rw [← take_add, countCodePoints, countCodePoints, countFrom_eq_length,
        countFrom_eq_length, hmarker, hboth, length_append, length_singleton]

/-- The scan finds the marker of the first match, and the marker, one separator and the rest are the
text. -/
theorem numberedMarkerEnd_firstMatch (text : List UInt8) :
  (∀ stop, numberedMarkerEnd text = some stop ↔
    FirstMatch (fun _ => true) kNumberedRegexes text stop) ∧
  (numberedMarkerEnd text = none ↔
    ∀ marker ∈ kNumberedRegexes, ∀ stop, ¬ Matched (fun _ => true) marker text stop) ∧
  ∀ split ∈ splitListMarker text, ∃ separator point,
    text = split.marker ++ separator ++ split.text ∧ pointsFrom 0 separator = [point] ∧
    isSpacePoint point.value ∧
    split.prefixCodePoints = countCodePoints (split.marker ++ separator)
  := ⟨fun _ => numberedMarkerEnd_eq_some_iff, numberedMarkerEnd_eq_none_iff,
    fun _ => splitListMarker_parts⟩

/-- A number, a space and a newline. -/
def numberedNewline : List UInt8 :=
  [0x31, 0x2E, 0x20, 0x0A]

/-- The scan takes the newline as content. -/
theorem numberedMarkerEnd_firstMatch_numberedNewline :
  FirstMatch (fun _ => true) kNumberedRegexes numberedNewline 2
  := ((numberedMarkerEnd_firstMatch numberedNewline).1 2).mp (by decide +kernel)

/-- A dot that takes no newline finds no match where the scan finds a marker. -/
theorem not_firstMatch_numberedNewline :
  ¬ ∀ stop, numberedMarkerEnd numberedNewline = some stop ↔
    FirstMatch (fun value => value ≠ 0x0A) kNumberedRegexes numberedNewline stop
  := by
  intro h
  have hend : numberedMarkerEnd numberedNewline = some 2 := by decide +kernel
  obtain ⟨before, marker, after, -, hmatched, -⟩ := (h 2).mp hend
  obtain ⟨points, separator, first, content, -, -, hrest, -, hfirst⟩ := hmatched
  have hpoints : pointsAt numberedNewline 2 = [⟨0x20, 1⟩, ⟨0x0A, 1⟩] := rfl
  obtain ⟨-, hcontent⟩ := List.cons.inj (hpoints.symm.trans hrest)
  obtain ⟨rfl, -⟩ := List.cons.inj hcontent
  exact absurd hfirst (by decide)

end GRParse.ListMarker
