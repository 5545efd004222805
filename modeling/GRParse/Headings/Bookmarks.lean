import GRParse.Headings.TitleDistance
import GRParse.Lib.Map
import Mathlib.Data.Rat.Floor
import Mathlib.Tactic.Positivity

/-!
# Levels from bookmarks

A heading takes the level of the entry of the outline whose title is most like its own.  An entry of
the same title is found in an index; otherwise the entries are compared one after the other, and a
distance is computed only as far as it could reach the threshold and be better than the best so far.
The comparison stops once a budget of cells is spent.

Until then the level is that of the first entry among those most like the heading.
-/

namespace GRParse.Headings

open Containers EditTable List

/-! ### The matching -/

structure OutlineEntry where
  title : List UInt8
  level : ℤ
  pageNo : Option ℤ := none

/-- Edit-distance cells the matching may spend on one document. -/
def kBookmarkEditCellBudget : ℕ := 128000000

/-- The entry and the heading are not on two different pages. -/
def pageCompatible (entry : OutlineEntry) (header : HeaderHeight) : Bool :=
  match entry.pageNo with
  | none => true
  | some pageNo => !(pageNo > 0 && header.page > 0 && pageNo ≠ header.page)

/-- The entries of positive level under their titles, in the order of the outline. -/
def byTitle (outline : List OutlineEntry) : List UInt8 → List OutlineEntry :=
  outline.foldl
    (fun index entry =>
      if entry.level > 0 then
        let title := normalizedTitle entry.title
        Function.update index title (index title ++ [entry])
      else index)
    (fun _ => [])

/-- What the comparison of one heading keeps. -/
structure MatchState where
  best : ℚ := -1
  bestLevel : ℤ := 0
  cells : ℕ

def MatchState.take (state : MatchState) (similarity : ℚ) (level : ℤ) : MatchState :=
  if similarity > state.best then { state with best := similarity, bestLevel := level } else state

/-- The distance that matters, for titles the longer of which has this length. -/
def editLimit (floorSimilarity : ℚ) (longer : ℕ) : ℕ :=
  ⌊(1 - floorSimilarity) * longer + 1 / 1000000000⌋.toNat

/-- An entry that is compared, and whether the comparison reaches the end of its turn: one that is
cut off goes on to the next entry at once. -/
def compareEntry (threshold : ℚ) (text : List UInt8) (entry : OutlineEntry) (state : MatchState) :
    MatchState × Bool :=
  let title := normalizedTitle entry.title
  if text = [] ∨ title = [] then
    (state.take (if text = [] ∧ title = [] then 1 else 0) entry.level, true)
  else
    let longer := max text.length title.length
    let floorSimilarity := max threshold state.best
    if floorSimilarity > 1 then (state, false)
    else
      let limit := editLimit floorSimilarity longer
      let (distance, cells) := boundedEditDistance text title limit state.cells
      let state := { state with cells := cells }
      if distance > limit then (state, false)
      else (state.take (1 - distance / longer) entry.level, true)

/-- The loop over the outline. -/
def compareEntries (threshold : ℚ) (text : List UInt8) (header : HeaderHeight) :
    List OutlineEntry → MatchState → MatchState
  | [], state => state
  | entry :: rest, state =>
    if entry.level ≤ 0 || !pageCompatible entry header then
      compareEntries threshold text header rest state
    else
      match compareEntry threshold text entry state with
      | (state, true) =>
        if state.cells > kBookmarkEditCellBudget then state
        else compareEntries threshold text header rest state
      | (state, false) => compareEntries threshold text header rest state

/-- The best match of a heading. -/
def matchHeader (options : HeadingOptions) (outline : List OutlineEntry) (header : HeaderHeight)
    (cells : ℕ) : MatchState :=
  let text := normalizedTitle header.text
  let start : MatchState :=
    match (byTitle outline text).find? (fun entry => pageCompatible entry header) with
    | some entry => { best := 1, bestLevel := entry.level, cells := cells }
    | none => { cells := cells }
  if start.best < 1 ∧ start.cells ≤ kBookmarkEditCellBudget then
    compareEntries options.bookmarkMatchThreshold text header outline start
  else start

/-- The levels so far and the cells spent, after one more heading. -/
def matchHeading (options : HeadingOptions) (outline : List OutlineEntry)
    (state : Map String ℤ × ℕ) (header : HeaderHeight) : Map String ℤ × ℕ :=
  let found := matchHeader options outline header state.2
  if found.best ≥ options.bookmarkMatchThreshold ∧ found.bestLevel > 0 then
    (state.1.insert header.selfRef (min (levelCeiling options) found.bestLevel), found.cells)
  else (state.1, found.cells)

/-- The levels, and the cells spent on them. -/
def bookmarkMatches (headers : List HeaderHeight) (outline : List OutlineEntry)
    (options : HeadingOptions) : Map String ℤ × ℕ :=
  if !options.useBookmarks || outline.isEmpty then (∅, 0)
  else headers.foldl (matchHeading options outline) (∅, 0)

def bookmarkLevels (headers : List HeaderHeight) (outline : List OutlineEntry)
    (options : HeadingOptions) : Map String ℤ :=
  (bookmarkMatches headers outline options).1

/-! ### The plain best match -/

/-- The similarity of a heading and an entry. -/
def likeness (header : HeaderHeight) (entry : OutlineEntry) : ℚ :=
  headingTitleSimilarity header.text entry.title

/-- The entry may give the heading its level. -/
def offers (header : HeaderHeight) (entry : OutlineEntry) : Bool :=
  0 < entry.level && pageCompatible entry header

/-- The entries that reach the threshold. -/
def reaching (threshold : ℚ) (header : HeaderHeight) (outline : List OutlineEntry) :
    List OutlineEntry :=
  outline.filter (fun entry => offers header entry && threshold ≤ likeness header entry)

/-- The first of the entries most like the heading, of those that reach the threshold. -/
def plainMatch (threshold : ℚ) (header : HeaderHeight) (outline : List OutlineEntry) :
    Option OutlineEntry :=
  (reaching threshold header outline).argmax (likeness header)

/-- The levels when every entry is compared with every heading. -/
def plainLevels (headers : List HeaderHeight) (outline : List OutlineEntry)
    (options : HeadingOptions) : Map String ℤ :=
  if !options.useBookmarks then ∅
  else
    headers.foldl
      (fun levels header =>
        match plainMatch options.bookmarkMatchThreshold header outline with
        | some entry => levels.insert header.selfRef (min (levelCeiling options) entry.level)
        | none => levels)
      ∅

/-! ### Similarities -/

theorem likeness_le_one (header : HeaderHeight) (entry : OutlineEntry) :
  likeness header entry ≤ 1
  := (titleSimilarity_mem_Icc _ _).2

/-- Titles are wholly alike if they are equal once normalized. -/
theorem likeness_eq_one_iff (header : HeaderHeight) (entry : OutlineEntry) :
  likeness header entry = 1 ↔ normalizedTitle entry.title = normalizedTitle header.text
  := by
  rw [eq_comm (a := normalizedTitle entry.title)]
  exact titleSimilarity_eq_one_iff _ _

/-- A distance beyond the limit leaves the similarity below the floor. -/
theorem similarity_lt_of_editLimit_lt {floorSimilarity : ℚ} {longer distance : ℕ}
    (hlonger : 0 < longer) (h : editLimit floorSimilarity longer < distance) :
  1 - (distance : ℚ) / longer < floorSimilarity
  := by
  have hpos : (0 : ℚ) < longer := by exact_mod_cast hlonger
  have hfloor : ⌊(1 - floorSimilarity) * longer + 1 / 1000000000⌋ < (distance : ℤ) := by
    rw [editLimit] at h
    omega
  have hlt := Int.floor_lt.mp hfloor
  have hcast : (1 - floorSimilarity) * longer < distance := by
    have hsmall : (0 : ℚ) < 1 / 1000000000 := by norm_num
    push_cast at hlt
    linarith
  rw [sub_lt_comm, lt_div_iff₀ hpos]
  exact hcast

/-! ### One comparison -/

/-- What is kept of the entries seen is the plain best match among them. -/
def BestSoFar (threshold : ℚ) (header : HeaderHeight) (seen : List OutlineEntry) (best : ℚ)
    (bestLevel : ℤ) : Prop :=
  match plainMatch threshold header seen with
  | some entry => best = likeness header entry ∧ bestLevel = entry.level
  | none => best < threshold

variable {header : HeaderHeight} {entry : OutlineEntry} {threshold : ℚ}

/-- An entry that is not in question leaves the best match. -/
theorem plainMatch_concat_of_not (seen : List OutlineEntry)
    (h : (offers header entry && decide (threshold ≤ likeness header entry)) = false) :
  plainMatch threshold header (seen ++ [entry]) = plainMatch threshold header seen
  := by
  rw [plainMatch, plainMatch, reaching, filter_append, filter_singleton, h]
  simp [reaching]

/-- An entry in question is the best match if it is more like the heading than the best so far. -/
theorem plainMatch_concat (seen : List OutlineEntry) (hoffers : offers header entry = true)
    (hreaches : threshold ≤ likeness header entry) :
  plainMatch threshold header (seen ++ [entry]) =
    match plainMatch threshold header seen with
    | some best => if likeness header best < likeness header entry then some entry else some best
    | none => some entry
  := by
  have hentry : (offers header entry && decide (threshold ≤ likeness header entry)) = true := by
    simp [hoffers, hreaches]
  rw [plainMatch, plainMatch, reaching, filter_append, filter_singleton, hentry,
    ← reaching]
  simp only [cond_true]
  rw [argmax_concat]
  cases (reaching threshold header seen).argmax (likeness header) <;> rfl

/-- The best match of the entries seen reaches the threshold. -/
theorem le_of_plainMatch {seen : List OutlineEntry}
    (h : plainMatch threshold header seen = some entry) :
  threshold ≤ likeness header entry ∧ offers header entry = true
  := by
  have hmem := (mem_filter.mp (argmax_mem h)).2
  simp only [Bool.and_eq_true, decide_eq_true_eq] at hmem
  exact ⟨hmem.2, hmem.1⟩

/-- Taking an entry if it is better keeps the best match. -/
theorem BestSoFar.take {threshold : ℚ} {header : HeaderHeight} {seen : List OutlineEntry}
    {state : MatchState} (h : BestSoFar threshold header seen state.best state.bestLevel)
    {entry : OutlineEntry} (hoffers : offers header entry = true) :
  BestSoFar threshold header (seen ++ [entry]) (state.take (likeness header entry) entry.level).best
    (state.take (likeness header entry) entry.level).bestLevel
  := by
  rw [BestSoFar] at h ⊢
  by_cases hreaches : threshold ≤ likeness header entry
  · rw [plainMatch_concat seen hoffers hreaches]
    cases hmatch : plainMatch threshold header seen with
    | none =>
      rw [hmatch] at h
      have hlt : likeness header entry > state.best := lt_of_lt_of_le h hreaches
      simp [MatchState.take, hlt]
    | some best =>
      rw [hmatch] at h
      obtain ⟨hbest, hlevel⟩ := h
      by_cases hlt : likeness header best < likeness header entry
      · simp [MatchState.take, hbest, hlt]
      · simp [MatchState.take, hbest, hlt, hlevel]
  · rw [plainMatch_concat_of_not seen (by simp [hreaches])]
    cases hmatch : plainMatch threshold header seen with
    | none =>
      rw [hmatch] at h
      by_cases hlt : likeness header entry > state.best
      · simpa [MatchState.take, hlt] using not_le.mp hreaches
      · simpa [MatchState.take, hlt] using h
    | some best =>
      rw [hmatch] at h
      have hbest := (le_of_plainMatch hmatch).1
      have hle : ¬ likeness header entry > state.best := by
        rw [h.1]
        linarith [not_le.mp hreaches]
      rw [MatchState.take, if_neg hle]
      exact h

/-- An entry below the threshold or worse than the best so far may be left out. -/
theorem BestSoFar.skip {seen : List OutlineEntry} {best : ℚ} {bestLevel : ℤ}
    (h : BestSoFar threshold header seen best bestLevel)
    (hskip : offers header entry = true → likeness header entry < max threshold best) :
  BestSoFar threshold header (seen ++ [entry]) best bestLevel
  := by
  rw [BestSoFar] at h ⊢
  by_cases hentry : (offers header entry && decide (threshold ≤ likeness header entry)) = true
  · obtain ⟨hoffers, hreaches⟩ : offers header entry = true ∧ threshold ≤ likeness header entry := by
      simpa using hentry
    have hbetter : likeness header entry < best :=
      (lt_max_iff.mp (hskip hoffers)).resolve_left hreaches.not_gt
    rw [plainMatch_concat seen hoffers hreaches]
    cases hmatch : plainMatch threshold header seen with
    | none =>
      rw [hmatch] at h
      exact absurd (hbetter.trans h) hreaches.not_gt
    | some found =>
      rw [hmatch] at h
      rw [h.1] at hbetter
      simpa [hbetter.le.not_gt] using h
  · rw [plainMatch_concat_of_not seen (by simpa using hentry)]
    exact h

/-- The cells do not matter to what is taken. -/
theorem MatchState.take_cells (state : MatchState) (cells : ℕ) (similarity : ℚ) (level : ℤ) :
  (MatchState.take { state with cells := cells } similarity level).best =
      (state.take similarity level).best ∧
    (MatchState.take { state with cells := cells } similarity level).bestLevel =
      (state.take similarity level).bestLevel
  := by
  rw [MatchState.take, MatchState.take]
  dsimp only
  split <;> exact ⟨rfl, rfl⟩

/-- A comparison keeps the best match. -/
theorem BestSoFar.compareEntry {threshold : ℚ} {header : HeaderHeight} {seen : List OutlineEntry}
    {state : MatchState} (h : BestSoFar threshold header seen state.best state.bestLevel)
    {entry : OutlineEntry} (hoffers : offers header entry = true) :
  let result := compareEntry threshold (normalizedTitle header.text) entry state
  BestSoFar threshold header (seen ++ [entry]) result.1.best result.1.bestLevel
  := by
  have htake := h.take hoffers
  rw [Headings.compareEntry]
  by_cases hempty : normalizedTitle header.text = [] ∨ normalizedTitle entry.title = []
  · have hlikeness : likeness header entry =
        if normalizedTitle header.text = [] ∧ normalizedTitle entry.title = [] then 1 else 0 := by
      rw [likeness, headingTitleSimilarity, titleSimilarity]
      simp [hempty]
    rw [hlikeness] at htake
    simpa [hempty] using htake
  · have hlonger : 0 < max (normalizedTitle header.text).length (normalizedTitle entry.title).length :=
      lt_max_of_lt_left (length_pos_iff.mpr (fun hnil => hempty (Or.inl hnil)))
    have hlikeness : likeness header entry =
        1 - titleDistance (normalizedTitle header.text) (normalizedTitle entry.title) /
          (max (normalizedTitle header.text).length (normalizedTitle entry.title).length : ℕ) := by
      rw [likeness, headingTitleSimilarity, titleSimilarity, if_neg (fun h => hempty (Or.inl h.1)),
        if_neg hempty]
    rw [if_neg hempty]
    dsimp only
    by_cases hfloor : max threshold state.best > 1
    · rw [if_pos hfloor]
      exact h.skip (fun _ => (likeness_le_one header entry).trans_lt hfloor)
    rw [if_neg hfloor]
    have hdistance := boundedEditDistance_eq (normalizedTitle header.text)
      (normalizedTitle entry.title)
      (editLimit (max threshold state.best)
        (max (normalizedTitle header.text).length (normalizedTitle entry.title).length)) state.cells
    generalize boundedEditDistance (normalizedTitle header.text) (normalizedTitle entry.title)
      (editLimit (max threshold state.best)
        (max (normalizedTitle header.text).length (normalizedTitle entry.title).length))
      state.cells = result at hdistance
    obtain ⟨distance, cells⟩ := result
    dsimp only at hdistance ⊢
    split
    case isTrue hcut =>
      apply h.skip
      intro _
      rw [hlikeness]
      apply similarity_lt_of_editLimit_lt hlonger
      omega
    case isFalse hkept =>
      have heq : distance =
          titleDistance (normalizedTitle header.text) (normalizedTitle entry.title) := by
        omega
      rw [hlikeness, ← heq] at htake
      obtain ⟨hbest, hlevel⟩ := state.take_cells cells
        (1 - distance /
          (max (normalizedTitle header.text).length (normalizedTitle entry.title).length : ℕ))
        entry.level
      rw [hbest, hlevel]
      exact htake

theorem le_compareEntry (threshold : ℚ) (text : List UInt8) (entry : OutlineEntry)
    (state : MatchState) :
  state.cells ≤ (compareEntry threshold text entry state).1.cells
  := by
  have htake (state : MatchState) (similarity : ℚ) (level : ℤ) :
      (state.take similarity level).cells = state.cells := by
    rw [MatchState.take]
    split <;> rfl
  rw [compareEntry]
  dsimp only
  split
  · rw [htake]
  split
  · exact le_rfl
  split
  · exact le_boundedEditDistance _ _ _ _
  · rw [htake]
    exact le_boundedEditDistance _ _ _ _

/-! ### One heading -/

theorem le_compareEntries (threshold : ℚ) (text : List UInt8) (header : HeaderHeight)
    (entries : List OutlineEntry) (state : MatchState) :
  state.cells ≤ (compareEntries threshold text header entries state).cells
  := by
  induction entries generalizing state with
  | nil => exact le_rfl
  | cons entry entries ih =>
    have hle := le_compareEntry threshold text entry state
    rw [compareEntries]
    split
    · exact ih state
    · generalize compareEntry threshold text entry state = result at hle
      obtain ⟨after, ended⟩ := result
      cases ended with
      | true =>
        dsimp only
        split
        · exact hle
        · exact hle.trans (ih after)
      | false => exact hle.trans (ih after)

/-- Within the budget the loop finds the best match. -/
theorem BestSoFar.compareEntries {threshold : ℚ} {header : HeaderHeight}
    {seen entries : List OutlineEntry} {state : MatchState}
    (h : BestSoFar threshold header seen state.best state.bestLevel)
    (hbudget : (compareEntries threshold (normalizedTitle header.text) header entries state).cells ≤
      kBookmarkEditCellBudget) :
  let result := compareEntries threshold (normalizedTitle header.text) header entries state
  BestSoFar threshold header (seen ++ entries) result.best result.bestLevel
  := by
  induction entries generalizing seen state with
  | nil => simpa [Headings.compareEntries] using h
  | cons entry entries ih =>
    rw [append_cons]
    rw [Headings.compareEntries] at hbudget ⊢
    by_cases hoffers : offers header entry = true
    · have hskip : ¬ (decide (entry.level ≤ 0) || !pageCompatible entry header) = true := by
        simpa [offers] using hoffers
      rw [if_neg hskip] at hbudget ⊢
      have hnext := h.compareEntry hoffers
      generalize Headings.compareEntry threshold (normalizedTitle header.text) entry state = result
        at hnext hbudget
      obtain ⟨after, ended⟩ := result
      cases ended with
      | false => exact ih hnext hbudget
      | true =>
        dsimp only at hbudget ⊢
        split at hbudget
        case isTrue hover => exact absurd hbudget hover.not_ge
        case isFalse hwithin =>
          rw [if_neg hwithin]
          exact ih hnext hbudget
    · have hskip : (decide (entry.level ≤ 0) || !pageCompatible entry header) = true := by
        by_contra hnot
        apply hoffers
        simpa [offers] using hnot
      rw [if_pos hskip] at hbudget ⊢
      exact ih (h.skip (fun hoffered => absurd hoffered hoffers)) hbudget

/-- The index holds the entries of a title, in order. -/
theorem byTitle_eq (outline : List OutlineEntry) (title : List UInt8) :
  byTitle outline title =
    outline.filter (fun entry => 0 < entry.level && normalizedTitle entry.title = title)
  := by
  induction outline using reverseRecOn with
  | nil => rfl
  | append_singleton outline entry ih =>
    rw [filter_append, ← ih, byTitle, foldl_append, ← byTitle, foldl_cons,
      foldl_nil]
    by_cases hlevel : 0 < entry.level
    · by_cases htitle : normalizedTitle entry.title = title
      · simp [hlevel, htitle]
      · simp [hlevel, htitle, Function.update_of_ne (Ne.symm htitle)]
    · simp [hlevel]

/-- An element above those before it and not below those behind it is the first of the greatest. -/
theorem argmax_of_split {α : Type} {f : α → ℚ} {before after : List α} {element : α}
    (hbefore : ∀ other ∈ before, f other < f element)
    (hafter : ∀ other ∈ after, f other ≤ f element) :
  (before ++ element :: after).argmax f = some element
  := by
  induction before with
  | nil =>
    rw [nil_append, argmax_cons]
    cases hmax : after.argmax f with
    | none => rfl
    | some other => exact if_neg (hafter other (argmax_mem hmax)).not_gt
  | cons first before ih =>
    rw [cons_append, argmax_cons,
      ih (fun other hother => hbefore other (mem_cons_of_mem _ hother))]
    exact if_pos (hbefore first mem_cons_self)

variable {outline : List OutlineEntry}

/-- The first entry of the heading's own title is the best match outright. -/
theorem plainMatch_of_exact (hthreshold : threshold ≤ 1)
    (h : (byTitle outline (normalizedTitle header.text)).find?
      (fun entry => pageCompatible entry header) = some entry) :
  plainMatch threshold header outline = some entry ∧ likeness header entry = 1
  := by
  rw [byTitle_eq, find?_filter] at h
  obtain ⟨hentry, before, after, rfl, hbefore⟩ := find?_eq_some_iff_append.mp h
  simp only [Bool.and_eq_true, decide_eq_true_eq] at hentry
  obtain ⟨⟨hlevel, htitle⟩, hpage⟩ := hentry
  have hone : likeness header entry = 1 := (likeness_eq_one_iff header entry).mpr htitle
  have hoffers : (offers header entry && decide (threshold ≤ likeness header entry)) = true := by
    simp [offers, hlevel, hpage, hone, hthreshold]
  refine ⟨?_, hone⟩
  rw [plainMatch, reaching, filter_append, filter_cons, if_pos hoffers]
  apply argmax_of_split
  · intro other hother
    obtain ⟨hmem, hreach⟩ := mem_filter.mp hother
    simp only [offers, Bool.and_eq_true, decide_eq_true_eq] at hreach
    rw [hone]
    apply (likeness_le_one header other).lt_of_ne
    intro heq
    have hother := hbefore other hmem
    simp [hreach.1.1, hreach.1.2, (likeness_eq_one_iff header other).mp heq] at hother
  · intro other _
    rw [hone]
    exact likeness_le_one header other

variable (options : HeadingOptions)

theorem le_matchHeader (outline : List OutlineEntry) (header : HeaderHeight) (cells : ℕ) :
  cells ≤ (matchHeader options outline header cells).cells
  := by
  rw [matchHeader]
  cases (byTitle outline (normalizedTitle header.text)).find?
      (fun entry => pageCompatible entry header) with
  | some entry =>
    dsimp only
    rw [if_neg (fun h => absurd h.1 (lt_irrefl _))]
  | none =>
    dsimp only
    split
    · exact le_compareEntries _ _ _ _ { cells := cells }
    · exact le_rfl

/-- Within the budget the match of a heading is the plain best match. -/
theorem matchHeader_best {options : HeadingOptions} (hlow : 0 ≤ options.bookmarkMatchThreshold)
    (hhigh : options.bookmarkMatchThreshold ≤ 1) {cells : ℕ}
    (hbudget : (matchHeader options outline header cells).cells ≤ kBookmarkEditCellBudget) :
  let found := matchHeader options outline header cells
  BestSoFar options.bookmarkMatchThreshold header outline found.best found.bestLevel
  := by
  have hcells := (le_matchHeader options outline header cells).trans hbudget
  rw [matchHeader] at hbudget ⊢
  dsimp only at hbudget ⊢
  cases hexact : (byTitle outline (normalizedTitle header.text)).find?
      (fun entry => pageCompatible entry header) with
  | some entry =>
    obtain ⟨hmatch, hone⟩ := plainMatch_of_exact hhigh hexact
    dsimp only
    rw [if_neg (fun h => absurd h.1 (lt_irrefl _)), BestSoFar, hmatch]
    exact ⟨hone.symm, rfl⟩
  | none =>
    rw [hexact] at hbudget
    have hcond : (-1 : ℚ) < 1 ∧ cells ≤ kBookmarkEditCellBudget := ⟨by norm_num, hcells⟩
    have hnone : BestSoFar options.bookmarkMatchThreshold header []
        ({ cells := cells } : MatchState).best ({ cells := cells } : MatchState).bestLevel := by
      rw [BestSoFar, plainMatch, reaching, filter_nil, argmax_nil]
      exact lt_of_lt_of_le (by norm_num) hlow
    dsimp only at hbudget ⊢
    rw [if_pos hcond] at hbudget ⊢
    exact hnone.compareEntries hbudget

/-! ### All headings -/

theorem matchHeading_cells (outline : List OutlineEntry) (state : Map String ℤ × ℕ)
    (header : HeaderHeight) :
  (matchHeading options outline state header).2 =
    (matchHeader options outline header state.2).cells
  := by
  rw [matchHeading]
  split <;> rfl

theorem le_matchHeading (outline : List OutlineEntry) (state : Map String ℤ × ℕ)
    (header : HeaderHeight) :
  state.2 ≤ (matchHeading options outline state header).2
  := by
  rw [matchHeading_cells]
  exact le_matchHeader options outline header state.2

theorem le_foldl_matchHeading (outline : List OutlineEntry) (headers : List HeaderHeight)
    (state : Map String ℤ × ℕ) :
  state.2 ≤ (headers.foldl (matchHeading options outline) state).2
  := by
  induction headers generalizing state with
  | nil => exact le_rfl
  | cons header headers ih => exact (le_matchHeading options outline state header).trans (ih _)

/-- A heading is given the level of its plain best match. -/
theorem matchHeading_eq {options : HeadingOptions} (hlow : 0 ≤ options.bookmarkMatchThreshold)
    (hhigh : options.bookmarkMatchThreshold ≤ 1) {state : Map String ℤ × ℕ}
    (hbudget : (matchHeading options outline state header).2 ≤ kBookmarkEditCellBudget) :
  (matchHeading options outline state header).1 =
    match plainMatch options.bookmarkMatchThreshold header outline with
    | some entry => state.1.insert header.selfRef (min (levelCeiling options) entry.level)
    | none => state.1
  := by
  have hcells : (matchHeading options outline state header).2 =
      (matchHeader options outline header state.2).cells := by
    rw [matchHeading]
    split <;> rfl
  rw [hcells] at hbudget
  have hbest := matchHeader_best hlow hhigh hbudget
  rw [BestSoFar] at hbest
  rw [matchHeading]
  cases hmatch : plainMatch options.bookmarkMatchThreshold header outline with
  | none =>
    rw [hmatch] at hbest
    rw [if_neg (fun h => absurd hbest h.1.not_gt)]
  | some entry =>
    rw [hmatch] at hbest
    obtain ⟨hreaches, hoffers⟩ := le_of_plainMatch hmatch
    have hlevel : 0 < entry.level := by
      rw [offers] at hoffers
      simpa using (Bool.and_eq_true_iff.mp hoffers).1
    rw [hbest.1, hbest.2, if_pos ⟨hreaches, hlevel⟩]

/-- While the budget is not spent, the bookmarks give the levels of the plain best matches. -/
theorem bookmarkLevels_eq_plain (headers : List HeaderHeight) (outline : List OutlineEntry)
    (options : HeadingOptions) (hlow : 0 ≤ options.bookmarkMatchThreshold)
    (hhigh : options.bookmarkMatchThreshold ≤ 1)
    (hbudget : (bookmarkMatches headers outline options).2 ≤ kBookmarkEditCellBudget) :
  bookmarkLevels headers outline options = plainLevels headers outline options
  := by
  rw [bookmarkLevels, plainLevels]
  rw [bookmarkMatches] at hbudget ⊢
  by_cases hoff : options.useBookmarks = false
  · simp [hoff]
  have hon : (!options.useBookmarks) = false := by simpa using hoff
  rw [hon, Bool.false_or] at hbudget ⊢
  rw [if_neg Bool.false_ne_true]
  by_cases hempty : outline = []
  · -- An empty outline matches nothing, which the code finds out at once.
    subst hempty
    have hnone (header : HeaderHeight) :
        plainMatch options.bookmarkMatchThreshold header [] = none := rfl
    simp only [hnone, List.isEmpty_nil, if_true]
    exact (List.foldl_fixed' (fun _ => rfl) headers).symm
  · have hsome : outline.isEmpty = false := by simpa using hempty
    rw [hsome, if_neg Bool.false_ne_true] at hbudget ⊢
    generalize (∅ : Map String ℤ) = levels at hbudget ⊢
    generalize (0 : ℕ) = cells at hbudget ⊢
    induction headers generalizing levels cells with
    | nil => rfl
    | cons header headers ih =>
      have hheader := (le_foldl_matchHeading options outline headers _).trans hbudget
      rw [List.foldl_cons, List.foldl_cons, ← matchHeading_eq hlow hhigh hheader]
      exact ih _ _ hbudget

/-- A heading of the title of an entry; no cell is computed. -/
theorem bookmarkLevels_eq_plain_aims :
  bookmarkLevels [{ selfRef := "#/texts/0", text := [0x41, 0x69, 0x6d, 0x73] }]
      [{ title := [0x61, 0x69, 0x6d, 0x73], level := 2 }] {} =
    plainLevels [{ selfRef := "#/texts/0", text := [0x41, 0x69, 0x6d, 0x73] }]
      [{ title := [0x61, 0x69, 0x6d, 0x73], level := 2 }] {}
  := by
  have hexact : (byTitle [{ title := [0x61, 0x69, 0x6d, 0x73], level := 2 }]
      (normalizedTitle [0x41, 0x69, 0x6d, 0x73])).find?
      (fun entry => pageCompatible entry
        { selfRef := "#/texts/0", text := [0x41, 0x69, 0x6d, 0x73] }) =
      some { title := [0x61, 0x69, 0x6d, 0x73], level := 2 } := rfl
  have hcells : (bookmarkMatches [{ selfRef := "#/texts/0", text := [0x41, 0x69, 0x6d, 0x73] }]
      [{ title := [0x61, 0x69, 0x6d, 0x73], level := 2 }] {}).2 = 0 := by
    have hone : bookmarkMatches [{ selfRef := "#/texts/0", text := [0x41, 0x69, 0x6d, 0x73] }]
        [{ title := [0x61, 0x69, 0x6d, 0x73], level := 2 }] {} =
        matchHeading {} [{ title := [0x61, 0x69, 0x6d, 0x73], level := 2 }] (∅, 0)
          { selfRef := "#/texts/0", text := [0x41, 0x69, 0x6d, 0x73] } := rfl
    rw [hone, matchHeading_cells, matchHeader]
    dsimp only
    rw [hexact]
    exact congrArg MatchState.cells (if_neg (fun h => absurd h.1 (lt_irrefl _)))
  apply bookmarkLevels_eq_plain
  · norm_num
  · norm_num
  · rw [hcells]
    exact Nat.zero_le _

end GRParse.Headings
