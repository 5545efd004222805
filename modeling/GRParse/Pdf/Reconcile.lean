import GRParse.Assembly.Page
import GRParse.Lib.Utf8
import Mathlib.Data.Finset.Insert

/-!
# Reconciliation of two readings of a page

The words of the page that won the vote are linked, one after the other, to those of another reading:
each to the unused word with the same text whose line is nearest, or to a different word in the same
place, or to none.  Distances are exact here.
-/

namespace GRParse.Pdf

open Assembly Utf8 List

/-! ### Folding -/

/-- `std::isspace` in the C locale. -/
def isspace (byte : UInt8) : Bool :=
  byte == 0x20 || decide (0x09 ≤ byte) && decide (byte ≤ 0x0d)

/-- `std::tolower` in the C locale. -/
def tolower (byte : UInt8) : UInt8 :=
  if 0x41 ≤ byte ∧ byte ≤ 0x5a then byte + 0x20 else byte

/-- The code point that `fold_word` reads at a byte, and how many bytes it takes.  A point of four
bytes is not told from its first byte. -/
def readPoint (byte : UInt8) : List UInt8 → ℕ × ℕ
  | second :: rest =>
    if byte &&& 0xe0 = 0xc0 then ((byte &&& 0x1f).toNat * 64 + (second &&& 0x3f).toNat, 2)
    else
      match rest with
      | third :: rest =>
        if byte &&& 0xf0 = 0xe0 then
          ((byte &&& 0x0f).toNat * 4096 + (second &&& 0x3f).toNat * 64 + (third &&& 0x3f).toNat, 3)
        else if byte &&& 0xf8 = 0xf0 ∧ rest ≠ [] then (byte.toNat, 4)
        else (byte.toNat, 1)
      | [] => (byte.toNat, 1)
  | [] => (byte.toNat, 1)

/-- What a code point is folded to, as the bytes of ASCII, if it has a rule of its own. -/
def foldTable (code : ℕ) : Option (List UInt8) :=
  match code with
  | 0x00ad | 0xfffe | 0xffff => some []
  | 0x2018 | 0x2019 => some [0x27]
  | 0x201c | 0x201d => some [0x22]
  | 0x2013 | 0x2014 => some [0x2d]
  | 0xfb00 => some [0x66, 0x66]
  | 0xfb01 => some [0x66, 0x69]
  | 0xfb02 => some [0x66, 0x6c]
  | 0xfb03 => some [0x66, 0x66, 0x69]
  | 0xfb04 => some [0x66, 0x66, 0x6c]
  | 0xfb05 | 0xfb06 => some [0x73, 0x74]
  | _ => none

/-- What a code point of so many bytes is folded to. -/
def foldPoint (code length : ℕ) (bytes : List UInt8) : List UInt8 :=
  match foldTable code with
  | some folded => folded
  | none =>
    -- an uppercase letter of Latin-1
    if length = 2 ∧ 0xc0 ≤ code ∧ code ≤ 0xde ∧ code ≠ 0xd7 then
      [0xc3, UInt8.ofNat ((code + 0x20) % 64 + 128)]
    else if length = 1 then bytes.map tolower
    else bytes

/-- `fold_word`, past the bytes of the point before. -/
def foldFrom (passed : ℕ) : List UInt8 → List UInt8
  | [] => []
  | byte :: rest =>
    if passed = 0 then
      let point := readPoint byte rest
      foldPoint point.1 point.2 ((byte :: rest).take point.2) ++ foldFrom (point.2 - 1) rest
    else foldFrom (passed - 1) rest

/-- `fold_word`. -/
def foldWord (word : List UInt8) : List UInt8 :=
  foldFrom 0 word

/-! ### Words -/

/-- The words that a stream over a text yields. -/
def wordsOf (text : List UInt8) : List (List UInt8) :=
  (text.splitOnP isspace).filter fun word => !word.isEmpty

/-- `utf8_codepoint_count`. -/
def utf8CodepointCount (text : List UInt8) : ℕ :=
  text.countP startsChar

structure WordEntry where
  line : OcrLine
  folded : List UInt8
  utfStart : ℕ
  index : ℕ
  deriving DecidableEq

/-- The words of a page, each with its line. -/
def pageWords (page : OcrPage) : List (OcrLine × List UInt8) :=
  page.lines.flatMap fun line => (wordsOf line.text).map (line, ·)

/-- The loop over the words: the entries so far, and where the next word begins. -/
def addEntry (state : List WordEntry × ℕ) (word : OcrLine × List UInt8) : List WordEntry × ℕ :=
  (state.1 ++
    [{ line := word.1, folded := foldWord word.2, utfStart := state.2, index := state.1.length }],
    state.2 + (utf8CodepointCount word.2 + 1))

/-- `word_entries`. -/
def wordEntries (page : OcrPage) : List WordEntry :=
  ((pageWords page).foldl addEntry ([], 0)).1

/-! ### Matching -/

/-- The distance that stands for none, and that the search for the same text starts from. -/
def unreached : ℚ := 10 ^ 18

/-- `anchor_distance`, squared. -/
def anchorDistance (line other : OcrLine) : ℚ :=
  match line.polygon, other.polygon with
  | anchor :: _, anchor' :: _ =>
    let dx : ℚ := anchor.x - anchor'.x
    let dy : ℚ := anchor.y - anchor'.y
    dx * dx + dy * dy
  | _, _ => unreached

/-- A candidate in a search: it is the match so far when it is not used and is closer. -/
def searchStep (closer : ℚ → ℚ → Bool) (used : Finset ℕ) (word : WordEntry)
    (found : ℚ × Option WordEntry) (entry : WordEntry) : ℚ × Option WordEntry :=
  if entry.index ∈ used then found
  else
    let distance := anchorDistance word.line entry.line
    if closer distance found.1 then (distance, some entry) else found

/-- The nearest unused word with the same text. -/
def sameText (candidates : List WordEntry) (used : Finset ℕ) (word : WordEntry) :
    Option WordEntry :=
  ((candidates.filter fun entry => entry.folded = word.folded).foldl
    (searchStep (fun distance best => decide (distance < best)) used word) (unreached, none)).2

/-- The nearest unused word within a radius, whose square is given. -/
def samePlace (candidates : List WordEntry) (toleranceSq : ℚ) (used : Finset ℕ)
    (word : WordEntry) : Option WordEntry :=
  (candidates.foldl
    (searchStep (fun distance best => decide (distance ≤ best)) used word) (toleranceSq, none)).2

structure ReconciliationLink where
  consensusIndex : ℕ
  consensusUtfStart : ℕ
  sourceIndex : Option ℕ := none
  sourceUtfStart : ℕ := 0
  textDeviation : Bool := false
  orderBreak : Bool := false
  deriving DecidableEq

structure SourceReconciliation where
  source : String
  weight : ℚ
  matched : ℕ := 0
  missing : ℕ := 0
  orderBreaks : ℕ := 0
  textDeviations : ℕ := 0
  links : List ReconciliationLink := []
  deriving DecidableEq

/-- The state of the loop over the winner's words. -/
structure Reconciling where
  out : SourceReconciliation
  used : Finset ℕ := ∅
  previous : Option ℕ := none

/-- A word that is linked to none. -/
def Reconciling.miss (state : Reconciling) (word : WordEntry) : Reconciling :=
  { state with
    out := { state.out with
      missing := state.out.missing + 1
      links := state.out.links ++ [⟨word.index, word.utfStart, none, 0, false, false⟩] } }

/-- A word that is linked. -/
def Reconciling.link (state : Reconciling) (word entry : WordEntry) (deviates : Bool) :
    Reconciling :=
  let breaks := state.previous.any fun previous => entry.index ≤ previous
  { out := { state.out with
      matched := state.out.matched + 1
      orderBreaks := state.out.orderBreaks + breaks.toNat
      textDeviations := state.out.textDeviations + deviates.toNat
      links := state.out.links ++
        [⟨word.index, word.utfStart, some entry.index, entry.utfStart, deviates, breaks⟩] }
    used := insert entry.index state.used
    previous := some entry.index }

/-- One word of the loop. -/
def reconcileWord (candidates : List WordEntry) (toleranceSq : ℚ) (state : Reconciling)
    (word : WordEntry) : Reconciling :=
  match sameText candidates state.used word with
  | some entry => state.link word entry false
  | none =>
    match samePlace candidates toleranceSq state.used word with
    | some entry => state.link word entry true
    | none => state.miss word

/-- `reconcile`. -/
def reconcile (winner candidate : OcrPage) (source : String) (weight tolerancePx : ℚ) :
    SourceReconciliation :=
  ((wordEntries winner).foldl
    (reconcileWord (wordEntries candidate) (tolerancePx * tolerancePx))
    { out := { source, weight } }).out

/-! ### The words of a page -/

/-- The words of a page, joined by single spaces. -/
def wordStream (page : OcrPage) : List UInt8 :=
  List.intercalate [0x20] ((pageWords page).map Prod.snd)

/-- A word that stands in a stream at an offset, counted in code points, between spaces. -/
structure StandsAt (stream word : List UInt8) (start : ℕ) : Prop where
  slices : ∃ before after, stream = before ++ word ++ after ∧ utf8CodepointCount before = start ∧
    (before = [] ∨ ∃ front, before = front ++ [0x20]) ∧ (after = [] ∨ ∃ rest, after = 0x20 :: rest)

theorem intercalate_append_cons (separator : List UInt8) (before after : List (List UInt8))
    (word : List UInt8) :
  List.intercalate separator (before ++ word :: after) =
    before.flatMap (· ++ separator) ++ word ++ after.flatMap (separator ++ ·)
  := by
  induction before with
  | nil =>
    induction after generalizing word with
    | nil => simp [intercalate]
    | cons next after ih =>
      have hnext := ih next
      rw [nil_append] at hnext ⊢
      rw [intercalate_cons_cons, hnext]
      simp
  | cons first before ih =>
    have hcons : intercalate separator (first :: (before ++ word :: after)) =
        first ++ separator ++ intercalate separator (before ++ word :: after) := by
      cases before with
      | nil => rw [nil_append, intercalate_cons_cons]
      | cons second before => rw [cons_append, intercalate_cons_cons]
    rw [cons_append, hcons, ih]
    simp

theorem utf8CodepointCount_flatMap (words : List (List UInt8)) :
  utf8CodepointCount (words.flatMap (· ++ [0x20])) =
    (words.map fun word => utf8CodepointCount word + 1).sum
  := by
  induction words with
  | nil => rfl
  | cons word words ih =>
    have hspace : startsChar 0x20 = true := by decide
    rw [map_cons, sum_cons, ← ih, utf8CodepointCount, flatMap_cons,
      countP_append, countP_append, countP_singleton, if_pos hspace]
    rfl

/-- Where a word begins, behind the words before it. -/
def offsetOf (words : List (OcrLine × List UInt8)) : ℕ :=
  ((words.map Prod.snd).map fun word => utf8CodepointCount word + 1).sum

/-- What the entries of some words are. -/
theorem foldl_addEntry (words : List (OcrLine × List UInt8)) :
  let state := words.foldl addEntry ([], 0)
  state.1.length = words.length ∧
    state.2 = offsetOf words ∧
      ∀ (index : ℕ) (word : OcrLine × List UInt8), words[index]? = some word →
        state.1[index]? =
          some ⟨word.1, foldWord word.2, offsetOf (words.take index), index⟩
  := by
  induction words using reverseRecOn with
  | nil => exact ⟨rfl, rfl, fun index word hword => by simp at hword⟩
  | append_singleton words word ih =>
    obtain ⟨hlength, hoffset, hentries⟩ := ih
    rw [foldl_concat, addEntry]
    refine ⟨by simp [hlength], by simp [hoffset, offsetOf], fun index other hother => ?_⟩
    dsimp only
    rcases Nat.lt_trichotomy index words.length with hlt | rfl | hlt
    · rw [getElem?_append_left hlt] at hother
      rw [getElem?_append_left (hlength ▸ hlt), hentries index other hother,
        take_append_of_le_length hlt.le]
    · rw [getElem?_append_right le_rfl, Nat.sub_self] at hother
      cases hother
      rw [getElem?_append_right (by omega), hlength, Nat.sub_self, take_left, hoffset]
      rfl
    · rw [getElem?_eq_none (by simp; omega)] at hother
      cases hother

theorem length_wordEntries (page : OcrPage) :
  (wordEntries page).length = (pageWords page).length
  := (foldl_addEntry (pageWords page)).1

/-- An entry is that of the word of its index, where that stands in the stream. -/
theorem getElem?_wordEntries {page : OcrPage} {index : ℕ} {entry : WordEntry}
    (h : (wordEntries page)[index]? = some entry) :
  entry.index = index ∧ ∃ word, (pageWords page)[index]? = some (entry.line, word) ∧
    entry.folded = foldWord word ∧ StandsAt (wordStream page) word entry.utfStart
  := by
  have hlt : index < (pageWords page).length :=
    length_wordEntries page ▸ (List.getElem?_eq_some_iff.mp h).1
  obtain ⟨⟨line, word⟩, hword⟩ : ∃ word, (pageWords page)[index]? = some word :=
    ⟨_, List.getElem?_eq_getElem hlt⟩
  have heq := (foldl_addEntry (pageWords page)).2.2 index (line, word) hword
  rw [← wordEntries, h] at heq
  obtain rfl := Option.some.inj heq
  refine ⟨rfl, word, hword, rfl, ⟨?_⟩⟩
  have hsplit : (pageWords page).map Prod.snd =
      ((pageWords page).take index).map Prod.snd ++
        word :: ((pageWords page).drop (index + 1)).map Prod.snd := by
    conv_lhs => rw [← List.take_append_drop index (pageWords page)]
    rw [List.map_append, List.drop_eq_getElem_cons hlt, List.map_cons,
      (List.getElem?_eq_some_iff.mp hword).2]
  rw [wordStream, hsplit, intercalate_append_cons]
  refine ⟨_, _, rfl, utf8CodepointCount_flatMap _, ?_, ?_⟩
  · rcases List.eq_nil_or_concat (((pageWords page).take index).map Prod.snd) with hnil |
      ⟨front, last, hlast⟩
    · rw [hnil]
      exact .inl rfl
    · rw [hlast, List.concat_eq_append, List.flatMap_append]
      exact .inr ⟨front.flatMap (· ++ [0x20]) ++ last, by simp⟩
  · cases ((pageWords page).drop (index + 1)).map Prod.snd with
    | nil => exact .inl rfl
    | cons next rest => exact .inr ⟨_, rfl⟩

/-! ### Searches -/

/-- What a search finds is an unused candidate; where it finds none, no unused candidate is closer
than what it started from. -/
theorem foldl_searchStep (closer : ℚ → ℚ → Bool) (used : Finset ℕ) (word : WordEntry) (bound : ℚ)
    (entries : List WordEntry) :
  let found := entries.foldl (searchStep closer used word) (bound, none)
  (∀ entry, found.2 = some entry → entry ∈ entries ∧ entry.index ∉ used) ∧
    (found.2 = none → found.1 = bound ∧ ∀ entry ∈ entries, entry.index ∉ used →
      closer (anchorDistance word.line entry.line) bound = false)
  := by
  induction entries using reverseRecOn with
  | nil => simp
  | append_singleton entries last ih =>
    obtain ⟨hsome, hnone⟩ := ih
    rw [foldl_concat]
    generalize entries.foldl (searchStep closer used word) (bound, none) = found at hsome hnone ⊢
    have hkept : ∀ entry, found.2 = some entry → entry ∈ entries ++ [last] ∧ entry.index ∉ used :=
      fun entry hentry => ⟨mem_append_left _ (hsome entry hentry).1, (hsome entry hentry).2⟩
    unfold searchStep
    split
    case isTrue hused =>
      refine ⟨hkept, fun hmatch => ⟨(hnone hmatch).1, fun entry hentry hfresh => ?_⟩⟩
      rcases mem_append.mp hentry with hentry | hlast
      · exact (hnone hmatch).2 entry hentry hfresh
      · rw [mem_singleton.mp hlast] at hfresh
        exact absurd hused hfresh
    case isFalse hfresh =>
      dsimp only
      split
      case isTrue =>
        refine ⟨fun entry hentry => ?_, fun hmatch => (by cases hmatch)⟩
        cases hentry
        exact ⟨mem_append_right _ (mem_singleton_self _), hfresh⟩
      case isFalse hfar =>
        refine ⟨hkept, fun hmatch => ⟨(hnone hmatch).1, fun entry hentry hunused => ?_⟩⟩
        rcases mem_append.mp hentry with hentry | hlast
        · exact (hnone hmatch).2 entry hentry hunused
        · rw [mem_singleton.mp hlast, ← (hnone hmatch).1]
          exact Bool.eq_false_iff.mpr hfar

section

variable {candidates : List WordEntry} {used : Finset ℕ} {word entry : WordEntry}

theorem sameText_some (h : sameText candidates used word = some entry) :
  entry ∈ candidates ∧ entry.folded = word.folded ∧ entry.index ∉ used
  := by
  obtain ⟨hmem, hfresh⟩ := (foldl_searchStep _ used word unreached _).1 entry h
  obtain ⟨hmem, hfolded⟩ := mem_filter.mp hmem
  exact ⟨hmem, of_decide_eq_true hfolded, hfresh⟩

/-- A word for which no candidate with its text is found has none that is unused and in reach. -/
theorem sameText_none (h : sameText candidates used word = none) (hmem : entry ∈ candidates)
    (hfolded : entry.folded = word.folded) (hfresh : entry.index ∉ used) :
  unreached ≤ anchorDistance word.line entry.line
  := by
  have hfar := ((foldl_searchStep _ used word unreached _).2 h).2 entry
    (mem_filter.mpr ⟨hmem, decide_eq_true hfolded⟩) hfresh
  exact not_lt.mp (of_decide_eq_false hfar)

theorem samePlace_some {toleranceSq : ℚ}
    (h : samePlace candidates toleranceSq used word = some entry) :
  entry ∈ candidates ∧ entry.index ∉ used
  := (foldl_searchStep _ used word toleranceSq candidates).1 entry h

end

/-! ### Links -/

/-- The candidate words that some links use, in their order. -/
def linked (links : List ReconciliationLink) : List ℕ :=
  links.filterMap (·.sourceIndex)

/-- What a link says of a word, behind the links before it. -/
structure LinkFits (candidates : List WordEntry) (earlier : List ReconciliationLink)
    (word : WordEntry) (link : ReconciliationLink) : Prop where
  index : link.consensusIndex = word.index
  start : link.consensusUtfStart = word.utfStart
  source : ∀ index, link.sourceIndex = some index → index ∉ linked earlier ∧
    ∃ entry ∈ candidates, entry.index = index ∧ link.sourceUtfStart = entry.utfStart ∧
      (link.textDeviation = false → entry.folded = word.folded)
  deviation : link.textDeviation = true → link.sourceIndex ≠ none
  orderBreak : link.orderBreak = true ↔ ∃ index previous, link.sourceIndex = some index ∧
    (linked earlier).getLast? = some previous ∧ index < previous
  missing : link.sourceIndex = none → ∀ entry ∈ candidates, entry.folded = word.folded →
    entry.index ∉ linked earlier → unreached ≤ anchorDistance word.line entry.line

/-- What the loop over the winner's words keeps, behind some of them. -/
structure Reconciled (candidates words : List WordEntry) (state : Reconciling) : Prop where
  used : ∀ index, index ∈ state.used ↔ index ∈ linked state.out.links
  previous : state.previous = (linked state.out.links).getLast?
  nodup : (linked state.out.links).Nodup
  length : state.out.links.length = words.length
  counted : state.out.matched + state.out.missing = words.length
  matched : state.out.matched = (linked state.out.links).length
  deviations : state.out.textDeviations = state.out.links.countP (·.textDeviation)
  breaks : state.out.orderBreaks = state.out.links.countP (·.orderBreak)
  fits : ∀ (index : ℕ) (word : WordEntry) (link : ReconciliationLink), words[index]? = some word →
    state.out.links[index]? = some link →
      LinkFits candidates (state.out.links.take index) word link

section

variable {candidates words : List WordEntry} {state : Reconciling} {word entry : WordEntry}

/-- The links fit when one more does. -/
theorem Reconciled.fits_append (h : Reconciled candidates words state) {link : ReconciliationLink}
    (hlink : LinkFits candidates state.out.links word link) (index : ℕ) (other : WordEntry)
    (otherLink : ReconciliationLink) (hother : (words ++ [word])[index]? = some other)
    (hotherLink : (state.out.links ++ [link])[index]? = some otherLink) :
  LinkFits candidates ((state.out.links ++ [link]).take index) other otherLink
  := by
  have hlength := h.length
  rcases Nat.lt_trichotomy index words.length with hlt | rfl | hlt
  · rw [getElem?_append_left hlt] at hother
    rw [getElem?_append_left (by omega)] at hotherLink
    rw [take_append_of_le_length (by omega)]
    exact h.fits index other otherLink hother hotherLink
  · rw [getElem?_append_right le_rfl, Nat.sub_self] at hother
    rw [← hlength, getElem?_append_right le_rfl, Nat.sub_self] at hotherLink
    cases hother
    cases hotherLink
    rwa [← hlength, take_left]
  · rw [getElem?_eq_none (by simp; omega)] at hother
    cases hother

theorem linked_append (links : List ReconciliationLink) (link : ReconciliationLink) :
  linked (links ++ [link]) = linked links ++ link.sourceIndex.toList
  := by
  rw [linked, filterMap_append, linked]
  cases hindex : link.sourceIndex with
  | none => simp [hindex]
  | some index => simp [hindex]

theorem Reconciled.miss (h : Reconciled candidates words state)
    (hfar : ∀ entry ∈ candidates, entry.folded = word.folded → entry.index ∉ state.used →
      unreached ≤ anchorDistance word.line entry.line) :
  Reconciled candidates (words ++ [word]) (state.miss word)
  := by
  have hlinked : linked (state.miss word).out.links = linked state.out.links := by
    rw [Reconciling.miss, linked_append]
    exact append_nil _
  constructor
  case used => rw [hlinked]; exact h.used
  case previous => rw [hlinked]; exact h.previous
  case nodup => rw [hlinked]; exact h.nodup
  case length => simp [Reconciling.miss, h.length]
  case counted =>
    have hcounted := h.counted
    simp only [Reconciling.miss, length_append, length_singleton]
    omega
  case matched => rw [hlinked]; exact h.matched
  case deviations => simp [Reconciling.miss, h.deviations]
  case breaks => simp [Reconciling.miss, h.breaks]
  case fits =>
    apply h.fits_append
    constructor
    case index => rfl
    case start => rfl
    case source => exact fun _ hindex => by cases hindex
    case deviation => exact fun hdeviates => by cases hdeviates
    case orderBreak =>
      refine iff_of_false (by simp) ?_
      rintro ⟨_, _, hindex, -⟩
      cases hindex
    case missing =>
      intro _ entry hentry hfolded hfresh
      exact hfar entry hentry hfolded fun hused => hfresh ((h.used _).mp hused)

theorem Reconciled.link (h : Reconciled candidates words state) {deviates : Bool}
    (hmem : entry ∈ candidates) (hfresh : entry.index ∉ state.used)
    (hfolded : deviates = false → entry.folded = word.folded) :
  Reconciled candidates (words ++ [word]) (state.link word entry deviates)
  := by
  have hnew : entry.index ∉ linked state.out.links := fun hlinked =>
    hfresh ((h.used _).mpr hlinked)
  have hlinked : linked (state.link word entry deviates).out.links =
      linked state.out.links ++ [entry.index] := by
    rw [Reconciling.link, linked_append]
    rfl
  constructor
  case used =>
    intro index
    rw [hlinked, mem_append, mem_singleton, ← h.used]
    simp [Reconciling.link, or_comm]
  case previous =>
    rw [hlinked, getLast?_concat]
    rfl
  case nodup =>
    rw [hlinked, nodup_append]
    exact ⟨h.nodup, nodup_singleton _, fun index hindex other hother heq =>
      hnew (mem_singleton.mp hother ▸ heq ▸ hindex)⟩
  case length => simp [Reconciling.link, h.length]
  case counted =>
    have hcounted := h.counted
    simp only [Reconciling.link, length_append, length_singleton]
    omega
  case matched =>
    rw [hlinked, length_append, ← h.matched]
    rfl
  case deviations => cases deviates <;> simp [Reconciling.link, h.deviations]
  case breaks =>
    simp only [Reconciling.link, h.breaks, countP_append, countP_singleton]
    cases state.previous.any fun previous => decide (entry.index ≤ previous) <;> rfl
  case fits =>
    apply h.fits_append
    constructor
    case index => rfl
    case start => rfl
    case source =>
      intro index hindex
      cases hindex
      exact ⟨hnew, entry, hmem, rfl, rfl, hfolded⟩
    case deviation => exact fun _ hnone => by cases hnone
    case orderBreak =>
      rw [← h.previous]
      constructor
      · intro hbreak
        obtain ⟨previous, hprevious, hle⟩ := (Option.any_eq_true _ _).mp hbreak
        refine ⟨entry.index, previous, rfl, hprevious, ?_⟩
        apply lt_of_le_of_ne (of_decide_eq_true hle)
        -- the previous one is used
        rintro heq
        rw [h.previous] at hprevious
        exact hnew (heq ▸ mem_of_getLast? hprevious)
      · rintro ⟨index, previous, hindex, hprevious, hlt⟩
        cases hindex
        exact (Option.any_eq_true _ _).mpr ⟨previous, hprevious, decide_eq_true hlt.le⟩
    case missing => exact fun hnone => by cases hnone

/-- One word of the loop is linked, or stays missing. -/
theorem Reconciled.step (h : Reconciled candidates words state) (toleranceSq : ℚ)
    (word : WordEntry) :
  Reconciled candidates (words ++ [word]) (reconcileWord candidates toleranceSq state word)
  := by
  unfold reconcileWord
  cases htext : sameText candidates state.used word with
  | some entry =>
    obtain ⟨hmem, hfolded, hfresh⟩ := sameText_some htext
    exact h.link hmem hfresh fun _ => hfolded
  | none =>
    cases hplace : samePlace candidates toleranceSq state.used word with
    | some entry =>
      obtain ⟨hmem, hfresh⟩ := samePlace_some hplace
      exact h.link hmem hfresh fun hfalse => by cases hfalse
    | none => exact h.miss fun entry hmem => sameText_none htext hmem

theorem Reconciled.run (h : Reconciled candidates words state) (toleranceSq : ℚ)
    (rest : List WordEntry) :
  Reconciled candidates (words ++ rest) (rest.foldl (reconcileWord candidates toleranceSq) state)
  := by
  induction rest generalizing words state with
  | nil => rwa [append_nil]
  | cons word rest ih =>
    have hrest := ih (h.step toleranceSq word)
    rwa [append_assoc] at hrest

end

/-! ### What is reconciled -/

theorem exists_entry {page : OcrPage} {index : ℕ} {line : OcrLine} {word : List UInt8}
    (h : (pageWords page)[index]? = some (line, word)) :
  ∃ entry ∈ wordEntries page, entry.index = index ∧ entry.line = line ∧
    entry.folded = foldWord word
  := by
  have hlt : index < (wordEntries page).length := by
    rw [length_wordEntries]
    exact (List.getElem?_eq_some_iff.mp h).1
  have hentry := List.getElem?_eq_getElem hlt
  obtain ⟨hindex, other, hother, hfolded, -⟩ := getElem?_wordEntries hentry
  rw [h] at hother
  cases hother
  exact ⟨_, List.getElem_mem hlt, hindex, rfl, hfolded⟩

/-- What the link of a word says, behind the links of the words before it. -/
structure LinkOf (winner candidate : OcrPage) (earlier : List ReconciliationLink)
    (line : OcrLine) (word : List UInt8) (link : ReconciliationLink) : Prop where
  slices : StandsAt (wordStream winner) word link.consensusUtfStart
  source : ∀ index, link.sourceIndex = some index → index ∉ linked earlier ∧
    ∃ line' word', (pageWords candidate)[index]? = some (line', word') ∧
      StandsAt (wordStream candidate) word' link.sourceUtfStart ∧
        (link.textDeviation = false → foldWord word' = foldWord word)
  deviation : link.textDeviation = true → link.sourceIndex ≠ none
  orderBreak : link.orderBreak = true ↔ ∃ index previous, link.sourceIndex = some index ∧
    (linked earlier).getLast? = some previous ∧ index < previous
  missing : link.sourceIndex = none → ∀ (index : ℕ) (line' : OcrLine) (word' : List UInt8),
    (pageWords candidate)[index]? = some (line', word') → foldWord word' = foldWord word →
      index ∉ linked earlier → unreached ≤ anchorDistance line line'

theorem LinkFits.linkOf {winner candidate : OcrPage} {earlier : List ReconciliationLink}
    {index : ℕ} {entry : WordEntry} {link : ReconciliationLink}
    (h : LinkFits (wordEntries candidate) earlier entry link)
    (hentry : (wordEntries winner)[index]? = some entry) {line : OcrLine} {word : List UInt8}
    (hword : (pageWords winner)[index]? = some (line, word)) :
  link.consensusIndex = index ∧ LinkOf winner candidate earlier line word link
  := by
  obtain ⟨hindex, other, hother, hfolded, hstands⟩ := getElem?_wordEntries hentry
  rw [hword] at hother
  cases hother
  refine ⟨h.index.trans hindex, ⟨h.start ▸ hstands, ?_, h.deviation, h.orderBreak, ?_⟩⟩
  · intro source hsource
    obtain ⟨hfresh, found, hfound, rfl, hstart, hsame⟩ := h.source source hsource
    obtain ⟨position, hposition⟩ := mem_iff_getElem?.mp hfound
    obtain ⟨hsourceIndex, word', hword', hfolded', hstands'⟩ := getElem?_wordEntries hposition
    refine ⟨hfresh, found.line, word', hsourceIndex ▸ hword', hstart ▸ hstands', fun hunflagged => ?_⟩
    rw [← hfolded', ← hfolded]
    exact hsame hunflagged
  · intro hnone source line' word' hword' hsame hfresh
    obtain ⟨found, hfound, rfl, rfl, hfolded'⟩ := exists_entry hword'
    exact h.missing hnone found hfound (by rw [hfolded', hsame, hfolded]) hfresh

/-- The links are one for each word of the winner, in order, and use no candidate word twice; the
counts are theirs; and a word stays missing only when no unused candidate word with its text is in
reach. -/
theorem reconcile_links (winner candidate : OcrPage) (source : String) (weight tolerancePx : ℚ) :
  let out := reconcile winner candidate source weight tolerancePx
  out.links.length = (pageWords winner).length ∧
    (∀ (index : ℕ) (line : OcrLine) (word : List UInt8),
      (pageWords winner)[index]? = some (line, word) → ∃ link, out.links[index]? = some link ∧
        link.consensusIndex = index ∧
          LinkOf winner candidate (out.links.take index) line word link) ∧
    (linked out.links).Nodup ∧
    out.matched + out.missing = (pageWords winner).length ∧
    out.matched = (linked out.links).length ∧
    out.textDeviations = out.links.countP (·.textDeviation) ∧
    out.orderBreaks = out.links.countP (·.orderBreak)
  := by
  intro out
  have hstart : Reconciled (wordEntries candidate) [] { out := { source, weight } } :=
    ⟨by simp [linked], rfl, List.nodup_nil, rfl, rfl, rfl, rfl, rfl, by simp⟩
  have hrun := hstart.run (tolerancePx * tolerancePx) (wordEntries winner)
  rw [List.nil_append] at hrun
  have hlength : out.links.length = (pageWords winner).length :=
    hrun.length.trans (length_wordEntries winner)
  refine ⟨hlength, fun index line word hword => ?_, hrun.nodup,
    hrun.counted.trans (length_wordEntries winner), hrun.matched, hrun.deviations, hrun.breaks⟩
  have hlt := (List.getElem?_eq_some_iff.mp hword).1
  have hentry := List.getElem?_eq_getElem (length_wordEntries winner ▸ hlt)
  have hlink := List.getElem?_eq_getElem (hlength ▸ hlt)
  exact ⟨_, hlink, (hrun.fits index _ _ hentry hlink).linkOf hentry hword⟩

/-- A page with one word at a place. -/
def anchoredPage : OcrPage where
  lines := [{ text := [0x61], polygon := [⟨0, 0⟩] }]

/-- A page with the same word, but no place for it. -/
def unanchoredPage : OcrPage where
  lines := [{ text := [0x61] }]

/-- A word stays missing beside the same word on a line without a polygon. -/
theorem not_linked_unanchored :
  ¬ ∀ (winner candidate : OcrPage) (source : String) (weight tolerancePx : ℚ) (index other : ℕ)
      (line line' : OcrLine) (word word' : List UInt8) (link : ReconciliationLink),
    (reconcile winner candidate source weight tolerancePx).links[index]? = some link →
      link.sourceIndex = none → (pageWords winner)[index]? = some (line, word) →
        (pageWords candidate)[other]? = some (line', word') → foldWord word' = foldWord word →
          other ∈ linked ((reconcile winner candidate source weight tolerancePx).links.take index)
  := by
  intro h
  have hmem := h anchoredPage unanchoredPage "" 0 1 0 0 { text := [0x61], polygon := [⟨0, 0⟩] }
    { text := [0x61] } [0x61] [0x61] ⟨0, 0, none, 0, false, false⟩ (by decide +kernel) rfl
    (by decide +kernel) (by decide +kernel) rfl
  cases hmem

end GRParse.Pdf
