import GRParse.Confluence.InlineText

/-!
# Trimmed items

The text of an item made of runs has no white space at its ends, and blank runs make no item, if
the runs next to blank ends do not have white space there.  The white space of two runs of three is
cut, and the white space of the third is left.
-/

namespace GRParse.Confluence.Inline

open List

/-! ### Ends of a text -/

section

variable {α : Type} {p : α → Bool}

/-- What is behind a cut beginning is looked at only if nothing is left of it. -/
theorem head?_dropWhile_append_iff (front back : List α) :
  (∀ a ∈ (front.dropWhile p ++ back).head?, p a = false) ↔
    ((∀ a ∈ front, p a = true) → ∀ a ∈ back.head?, p a = false)
  := by
  by_cases hfront : ∀ a ∈ front, p a = true
  · rw [dropWhile_eq_nil_iff.mpr hfront, nil_append]
    exact ⟨fun h _ => h, fun h => h hfront⟩
  · have hne : front.dropWhile p ≠ [] := mt dropWhile_eq_nil_iff.mp hfront
    obtain ⟨first, rest, hrest⟩ := exists_cons_of_ne_nil hne
    have hfirst : p first = false := by
      have hhead := head?_dropWhile_not p front
      rwa [hrest] at hhead
    simp [hrest, hfirst, hfront]

/-- Cutting the end of a text that is not cut to nothing leaves its beginning. -/
theorem head?_append_rdropWhile {middle back : List α}
    (h : middle = [] → ¬ ∀ a ∈ back, p a = true) :
  (middle ++ back.rdropWhile p).head? = (middle ++ back).head?
  := by
  cases middle with
  | cons first rest => rfl
  | nil =>
    have hne : back.rdropWhile p ≠ [] := mt rdropWhile_eq_nil_iff.mp (h rfl)
    rw [nil_append, nil_append]
    conv_rhs => rw [← rdropWhile_append_rtakeWhile (p := p) (l := back)]
    exact (head?_append_of_ne_nil _ hne).symm

theorem head?_cut_iff {front middle back : List α}
    (h : (∀ a ∈ front, p a = true) → middle = [] → ¬ ∀ a ∈ back, p a = true) :
  (∀ a ∈ (front.dropWhile p ++ (middle ++ back.rdropWhile p)).head?, p a = false) ↔
    ((∀ a ∈ front, p a = true) → ∀ a ∈ (middle ++ back).head?, p a = false)
  := by
  rw [head?_dropWhile_append_iff]
  apply forall_congr'
  intro hfront
  rw [head?_append_rdropWhile (h hfront)]

theorem getLast?_cut_iff {front middle back : List α}
    (h : (∀ a ∈ back, p a = true) → middle = [] → ¬ ∀ a ∈ front, p a = true) :
  (∀ a ∈ (front.dropWhile p ++ (middle ++ back.rdropWhile p)).getLast?, p a = false) ↔
    ((∀ a ∈ back, p a = true) → ∀ a ∈ (front ++ middle).getLast?, p a = false)
  := by
  have hcut := @head?_cut_iff _ p back.reverse middle.reverse front.reverse (by simpa using h)
  rw [rdropWhile_reverse, ← reverse_append, ← reverse_append] at hcut
  have hback : back.reverse.dropWhile p = (back.rdropWhile p).reverse := by
    rw [rdropWhile, reverse_reverse]
  rw [hback, ← reverse_append, append_assoc] at hcut
  simpa only [head?_reverse, mem_reverse] using hcut

end

/-! ### The text that is left -/

@[simp]
theorem runsText_dropEmpty (runs : List InlineRun) :
  runsText (dropEmpty runs) = runsText runs
  := by
  induction runs with
  | nil => rfl
  | cons run runs ih =>
    rw [dropEmpty, filter_cons]
    split
    case isTrue => rw [runsText_cons, runsText_cons, ← dropEmpty, ih]
    case isFalse hempty =>
      have htext : run.text = [] := by simpa using hempty
      rw [← dropEmpty, ih, runsText_cons, htext, nil_append]

variable {runs : List InlineRun}

theorem text_ne_nil_of_mem_dropEmpty {run : InlineRun} (h : run ∈ dropEmpty runs) :
  run.text ≠ []
  := by
  have htext := (mem_filter.mp h).2
  simpa using htext

/-- Runs that hold text have a text. -/
theorem dropEmpty_eq_nil_iff (runs : List InlineRun) :
  dropEmpty runs = [] ↔ runsText runs = []
  := by
  rw [← runsText_dropEmpty]
  cases hkept : dropEmpty runs with
  | nil => simp
  | cons first rest =>
    have hfirst : first.text ≠ [] := text_ne_nil_of_mem_dropEmpty (hkept ▸ mem_cons_self)
    simp [hfirst]

/-- A run holds white space only. -/
def InlineRun.Blank (run : InlineRun) : Prop :=
  ∀ letter ∈ run.text, isSpace letter = true

/-- The runs a paragraph is left with once the empty ones are dropped. -/
theorem runsText_trimRuns_nil (h : dropEmpty runs = []) :
  runsText (trimRuns runs) = []
  := by
  rw [trimRuns, h]
  rfl

theorem runsText_trimRuns_singleton {run : InlineRun} (h : dropEmpty runs = [run]) :
  runsText (trimRuns runs) = trimBack (trimFront run.text)
  := by
  rw [trimRuns, h, runsText_dropEmpty, modifyHead_cons, ← nil_append [_],
    modifyLast_concat]
  simp [InlineRun.mapText]

variable {first last : InlineRun}

theorem runsText_trimRuns_ends {runs middle : List InlineRun}
    (h : dropEmpty runs = first :: (middle ++ [last])) :
  runsText (trimRuns runs) = trimFront first.text ++ (runsText middle ++ trimBack last.text)
  := by
  rw [trimRuns, h, runsText_dropEmpty, modifyHead_cons, ← cons_append,
    modifyLast_concat]
  simp [InlineRun.mapText]

/-! ### Trimmed items -/

/-- A text has no white space at either end. -/
structure Trimmed (text : List Char) : Prop where
  front : ∀ letter ∈ text.head?, isSpace letter = false
  back : ∀ letter ∈ text.getLast?, isSpace letter = false

/-- If the first run is blank, the text behind it begins with no white space. -/
def ClearFront : List InlineRun → Prop
  | [] => True
  | first :: rest => first.Blank → ∀ letter ∈ (runsText rest).head?, isSpace letter = false

/-- If the last run is blank, the text before it ends with no white space. -/
def ClearBack (runs : List InlineRun) : Prop :=
  ∀ last ∈ runs.getLast?, last.Blank →
    ∀ letter ∈ (runsText runs.dropLast).getLast?, isSpace letter = false

/-- Blank ends have no white space next to them, or there is nothing between them and they are
blank both. -/
def ClearEnds (runs : List InlineRun) : Prop :=
  ((dropEmpty runs).length ≤ 2 ∧ ∀ run ∈ dropEmpty runs, run.Blank) ∨
    (ClearFront (dropEmpty runs) ∧ ClearBack (dropEmpty runs))

/-- The fold of some runs: it adds an item if a run holds more than white space, the text of the
item is trimmed and its links are those of its runs. -/
structure FoldsRuns (fold : Fold) (runs : List InlineRun) (parent : String) : Prop where
  adds : (∃ item, (flushInline fold runs parent).texts = fold.texts ++ [item]) ↔
    ∃ run ∈ runs, ∃ letter ∈ run.text, isSpace letter = false
  trimmed : ∀ item, (flushInline fold runs parent).texts = fold.texts ++ [item] →
    Trimmed item.text
  links : ∀ item, (flushInline fold runs parent).texts = fold.texts ++ [item] →
    LinksExact (trimRuns runs) item

theorem trimRuns_eq_nil_iff (runs : List InlineRun) :
  trimRuns runs = [] ↔ runsText (trimRuns runs) = []
  := by
  rw [trimRuns, dropEmpty_eq_nil_iff, runsText_dropEmpty]

/-- The item that is added holds the text that is left, with its links. -/
theorem flushInline_added {fold : Fold} {parent : String} {item : TextItem}
    (h : (flushInline fold runs parent).texts = fold.texts ++ [item]) :
  item.text = runsText (trimRuns runs) ∧ LinksExact (trimRuns runs) item
  := by
  rw [flushInline] at h
  split at h
  · simp at h
  · obtain rfl := singleton_inj.mp (append_cancel_left h)
    exact ⟨applyInline_text _ _, applyInline_linksExact _ _ _⟩

theorem exists_added_iff (fold : Fold) (runs : List InlineRun) (parent : String) :
  (∃ item, (flushInline fold runs parent).texts = fold.texts ++ [item]) ↔
    runsText (trimRuns runs) ≠ []
  := by
  rw [ne_eq, ← trimRuns_eq_nil_iff, flushInline]
  split
  case isTrue h => simp [h]
  case isFalse h => simp [h, Fold.addText]

/-- Only the text that is left decides. -/
theorem foldsRuns_iff (fold : Fold) (runs : List InlineRun) (parent : String) :
  FoldsRuns fold runs parent ↔
    ((runsText (trimRuns runs) ≠ [] ↔ ∃ run ∈ runs, ∃ letter ∈ run.text, isSpace letter = false) ∧
      Trimmed (runsText (trimRuns runs)))
  := by
  constructor
  · rintro ⟨hadds, htrimmed, -⟩
    rw [exists_added_iff] at hadds
    refine ⟨hadds, ?_⟩
    by_cases htext : runsText (trimRuns runs) = []
    · rw [htext]
      constructor <;> simp
    · obtain ⟨item, hitem⟩ := (exists_added_iff fold runs parent).mpr htext
      rw [← (flushInline_added hitem).1]
      exact htrimmed item hitem
  · rintro ⟨hadds, htrimmed⟩
    constructor
    case adds => rwa [exists_added_iff]
    case trimmed =>
      intro item hitem
      rwa [(flushInline_added hitem).1]
    case links =>
      intro item hitem
      exact (flushInline_added hitem).2

/-- A run holds more than white space, stated of the runs that hold text. -/
theorem exists_letter_iff (runs : List InlineRun) :
  (∃ run ∈ runs, ∃ letter ∈ run.text, isSpace letter = false) ↔
    ¬ ∀ run ∈ dropEmpty runs, run.Blank
  := by
  have hletters (list : List InlineRun) :
      (∃ run ∈ list, ∃ letter ∈ run.text, isSpace letter = false) ↔
        ∃ letter ∈ runsText list, isSpace letter = false := by
    simp only [runsText, mem_flatMap]
    grind
  rw [hletters, ← runsText_dropEmpty, ← hletters]
  simp [InlineRun.Blank]

theorem trimmed_cut (text : List Char) :
  Trimmed (trimBack (trimFront text))
  := by
  constructor
  case front =>
    have hfront := (head?_dropWhile_append_iff (p := isSpace) text []).mpr (by simp)
    rw [append_nil] at hfront
    by_cases hblank : ∀ letter ∈ trimFront text, isSpace letter = true
    · rw [trimBack, rdropWhile_eq_nil_iff.mpr hblank]
      simp
    · have hhead := @head?_append_rdropWhile _ isSpace [] _ (fun _ => hblank)
      rw [nil_append, nil_append] at hhead
      rwa [trimBack, hhead]
  case back =>
    intro letter hletter
    obtain ⟨hne, rfl⟩ := mem_getLast?_eq_getLast hletter
    have hlast := rdropWhile_last_not isSpace (trimFront text) hne
    simpa [trimBack] using hlast

/-- A text is cut to nothing if it is white space. -/
theorem cut_eq_nil_iff (text : List Char) :
  trimBack (trimFront text) = [] ↔ ∀ letter ∈ text, isSpace letter = true
  := by
  rw [trimBack, rdropWhile_eq_nil_iff]
  constructor
  · intro h
    have hfront : trimFront text = [] := by
      have hne := (head?_dropWhile_append_iff (p := isSpace) text []).mpr (by simp)
      rw [append_nil] at hne
      cases hrest : text.dropWhile isSpace with
      | nil => exact hrest
      | cons first rest =>
        have hfirst : isSpace first = true := h first (by simp [trimFront, hrest])
        rw [hne first (by simp [hrest])] at hfirst
        cases hfirst
    exact dropWhile_eq_nil_iff.mp hfront
  · intro h letter hletter
    exact h letter ((dropWhile_sublist isSpace).subset hletter)

/-! ### When an item is trimmed -/

/-- Both ends of a text of at least two runs, one of which holds more than white space. -/
theorem trimmed_ends_iff {middle : List InlineRun}
    (hblank : ¬ ∀ run ∈ first :: (middle ++ [last]), run.Blank)
    (htext : ∀ run ∈ middle, run.text ≠ []) :
  Trimmed (trimFront first.text ++ (runsText middle ++ trimBack last.text)) ↔
    (ClearFront (first :: (middle ++ [last])) ∧ ClearBack (first :: (middle ++ [last])))
  := by
  have hmiddle : runsText middle = [] → middle = [] := by
    intro h
    cases middle with
    | nil => rfl
    | cons run rest =>
      rw [runsText_cons, append_eq_nil_iff] at h
      exact absurd h.1 (htext run mem_cons_self)
  have hfront := head?_cut_iff (p := isSpace) (by
      intro hfirst hnil hlast
      obtain rfl := hmiddle hnil
      exact hblank (by simpa [InlineRun.Blank] using ⟨hfirst, hlast⟩))
  have hback := getLast?_cut_iff (p := isSpace) (by
      intro hlast hnil hfirst
      obtain rfl := hmiddle hnil
      exact hblank (by simpa [InlineRun.Blank] using ⟨hfirst, hlast⟩))
  have hclear : ClearBack (first :: (middle ++ [last])) ↔
      (last.Blank → ∀ letter ∈ (first.text ++ runsText middle).getLast?,
        isSpace letter = false) := by
    rw [ClearBack, ← cons_append, getLast?_concat, dropLast_concat]
    simp
  have hclearFront : ClearFront (first :: (middle ++ [last])) ↔
      (first.Blank → ∀ letter ∈ (runsText middle ++ last.text).head?, isSpace letter = false) := by
    rw [ClearFront, runsText_append, runsText_cons, runsText_nil, append_nil]
  rw [hclear, hclearFront, InlineRun.Blank, InlineRun.Blank, ← hfront, ← hback]
  exact ⟨fun h => ⟨h.front, h.back⟩, fun h => ⟨h.1, h.2⟩⟩

/-- Of blank runs, the text behind the first begins with white space. -/
theorem not_clearFront_of_blank {middle : List InlineRun}
    (hblank : ∀ run ∈ first :: (middle ++ [last]), run.Blank) (htext : last.text ≠ []) :
  ¬ ClearFront (first :: (middle ++ [last]))
  := by
  intro hclear
  have hne : runsText (middle ++ [last]) ≠ [] := by simp [htext]
  obtain ⟨letter, rest, hrest⟩ := exists_cons_of_ne_nil hne
  have hfalse : isSpace letter = false :=
    hclear (hblank first mem_cons_self) letter (by simp [hrest])
  have hmem : letter ∈ runsText (middle ++ [last]) := hrest ▸ mem_cons_self
  obtain ⟨run, hrun, hletter⟩ := mem_flatMap.mp hmem
  have htrue : isSpace letter = true := hblank run (mem_cons_of_mem _ hrun) letter hletter
  rw [hfalse] at htrue
  cases htrue

/-- Two ends and the runs between them are cut to nothing if they are blank and there is nothing
between them. -/
theorem ends_eq_nil_iff {middle : List InlineRun} (htext : ∀ run ∈ middle, run.text ≠ []) :
  trimFront first.text ++ (runsText middle ++ trimBack last.text) = [] ↔
    (first.Blank ∧ middle = [] ∧ last.Blank)
  := by
  rw [append_eq_nil_iff, append_eq_nil_iff, trimFront, trimBack,
    dropWhile_eq_nil_iff, rdropWhile_eq_nil_iff]
  have hmiddle : runsText middle = [] ↔ middle = [] := by
    cases middle with
    | nil => simp
    | cons run rest => simp [htext run mem_cons_self]
  rw [hmiddle]
  rfl

theorem clearEnds_singleton (run : InlineRun) :
  ClearFront [run] ∧ ClearBack [run]
  := by
  constructor
  · intro _
    simp
  · intro last _ _
    simp

/-- The item of some runs is right exactly if white space next to blank ends is not left over; the
links are those of the runs always. -/
theorem flushInline_right_iff (fold : Fold) (runs : List InlineRun) (selfRef parent : String) :
  (FoldsRuns fold runs parent ↔ ClearEnds runs) ∧
    LinksExact runs (applyInline runs { selfRef := selfRef, parent := parent })
  := by
  refine ⟨?_, applyInline_linksExact runs selfRef parent⟩
  rw [foldsRuns_iff, exists_letter_iff, ClearEnds]
  have htexts : ∀ run ∈ dropEmpty runs, run.text ≠ [] :=
    fun run hrun => text_ne_nil_of_mem_dropEmpty hrun
  rcases hkept : dropEmpty runs with _ | ⟨first, rest⟩
  · rw [runsText_trimRuns_nil hkept]
    constructor
    · intro _
      left
      simp
    · intro _
      exact ⟨by simp, by simp, by simp⟩
  rcases List.eq_nil_or_concat rest with rfl | ⟨middle, last, rfl⟩
  · rw [runsText_trimRuns_singleton hkept, ne_eq, cut_eq_nil_iff]
    constructor
    · intro _
      right
      exact clearEnds_singleton first
    · intro _
      exact ⟨by simp [InlineRun.Blank], trimmed_cut _⟩
  rw [List.concat_eq_append] at hkept ⊢
  rw [hkept] at htexts
  have hmiddle : ∀ run ∈ middle, run.text ≠ [] := fun run hrun => htexts run (by simp [hrun])
  rw [runsText_trimRuns_ends hkept, ne_eq, ends_eq_nil_iff hmiddle]
  by_cases hblank : ∀ run ∈ first :: (middle ++ [last]), run.Blank
  · have hfirst : first.Blank := hblank first (by simp)
    have hlast : last.Blank := hblank last (by simp)
    have hnone := not_clearFront_of_blank hblank (htexts last (by simp))
    constructor
    · rintro ⟨hadds, -⟩
      left
      have hnil : middle = [] := by
        by_contra hne
        exact hadds.mp (fun h => hne h.2.1) hblank
      simpa [hnil] using ⟨hfirst, hlast⟩
    · rintro (⟨hlength, -⟩ | ⟨hfront, -⟩)
      · have hnil : middle = [] := by
          apply List.eq_nil_of_length_eq_zero
          simp only [List.length_cons, List.length_append, List.length_nil] at hlength
          omega
        have hcut := (ends_eq_nil_iff hmiddle).mpr
          ⟨hfirst, hnil, hlast⟩
        rw [hcut]
        refine ⟨⟨fun h => absurd ⟨hfirst, hnil, hlast⟩ h, fun h => absurd hblank h⟩, ?_⟩
        constructor <;> simp
      · exact absurd hfront hnone
  · rw [trimmed_ends_iff hblank hmiddle]
    constructor
    · rintro ⟨-, hclear⟩
      right
      exact hclear
    · rintro (⟨-, h⟩ | hclear)
      · exact absurd h hblank
      · refine ⟨⟨fun _ => hblank, ?_⟩, hclear⟩
        rintro - ⟨hfirst, rfl, hlast⟩
        apply hblank
        simpa using ⟨hfirst, hlast⟩

/-- A run of a space before a text that begins with one is cut, and the other space is left. -/
theorem flushInline_keepsSpace :
  ¬ ∀ fold runs parent, FoldsRuns fold runs parent
  := by
  intro h
  have hfolds := h {} [{ text := [' '], style := { bold := true } }, { text := [' ', 'a'] }] "#/body"
  have hfront := (foldsRuns_iff _ _ _).mp hfolds
  exact absurd (hfront.2.front ' ' (by decide)) (by decide)

end GRParse.Confluence.Inline
