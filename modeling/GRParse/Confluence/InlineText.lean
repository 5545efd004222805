import GRParse.Lib.Stretches
import Mathlib.Data.List.DropRight
import Mathlib.Data.List.ModifyLast

/-!
# Inline text of a page

The runs of a paragraph become one text item.  Empty runs are dropped, the white space before the
first run and behind the last one is cut, and the links of the runs are kept with the code points
they cover.  A run that is cut to nothing is dropped, and what its neighbour begins or ends with is
not looked at again.
-/

namespace GRParse.Confluence.Inline

open List KeyedStretches

/-! ### Runs -/

def isSpace (letter : Char) : Bool :=
  letter = ' ' || letter = '\t' || letter = '\n' || letter = '\r' || letter = '\x0c' ||
    letter = '\x0b'

inductive Script where
  | unspecified
  | baseline
  | sub
  | super
deriving DecidableEq

structure InlineStyle where
  bold : Bool := false
  italic : Bool := false
  underline : Bool := false
  strikethrough : Bool := false
  script : Script := .unspecified
  hyperlink : String := ""
deriving DecidableEq

/-- A run of one style; its text is a list of code points. -/
structure InlineRun where
  text : List Char
  style : InlineStyle := {}
deriving DecidableEq

def InlineRun.target (run : InlineRun) : String :=
  run.style.hyperlink

def InlineRun.mapText (f : List Char → List Char) (run : InlineRun) : InlineRun :=
  { run with text := f run.text }

def runsText (runs : List InlineRun) : List Char :=
  runs.flatMap InlineRun.text

@[simp]
theorem runsText_nil :
  runsText [] = []
  := rfl

@[simp]
theorem runsText_cons (run : InlineRun) (runs : List InlineRun) :
  runsText (run :: runs) = run.text ++ runsText runs
  := flatMap_cons

@[simp]
theorem runsText_append (left right : List InlineRun) :
  runsText (left ++ right) = runsText left ++ runsText right
  := flatMap_append

def dropEmpty (runs : List InlineRun) : List InlineRun :=
  runs.filter (fun run => !run.text.isEmpty)

/-- Cuts the white space a text begins with. -/
def trimFront (text : List Char) : List Char :=
  text.dropWhile isSpace

/-- Cuts the white space a text ends with. -/
def trimBack (text : List Char) : List Char :=
  text.rdropWhile isSpace

def trimRuns (runs : List InlineRun) : List InlineRun :=
  dropEmpty (((dropEmpty runs).modifyHead (InlineRun.mapText trimFront)).modifyLast
    (InlineRun.mapText trimBack))

/-! ### Items -/

def sameFormatting (left right : InlineStyle) : Bool :=
  left.bold = right.bold && left.italic = right.italic && left.underline = right.underline &&
    left.strikethrough = right.strikethrough && left.script = right.script

def plainFormatting (style : InlineStyle) : Bool :=
  !style.bold && !style.italic && !style.underline && !style.strikethrough &&
    style.script = .unspecified

structure Formatting where
  bold : Bool
  italic : Bool
  underline : Bool
  strikethrough : Bool
  script : Script
deriving DecidableEq

/-- An entry of the custom field `hyperlinks`. -/
structure Link where
  url : String
  charStart : ℕ
  charEnd : ℕ
deriving DecidableEq

structure TextItem where
  selfRef : String
  parent : String
  text : List Char := []
  orig : List Char := []
  formatting : Option Formatting := none
  hyperlink : Option String := none
  hyperlinks : List Link := []
deriving DecidableEq

/-- What the loop over the runs keeps of their links; `localCount` counts the code points read. -/
structure LinkState where
  links : List Link := []
  localCount : ℕ := 0
  start : ℕ := 0
  url : String := ""

def LinkState.flush (state : LinkState) : LinkState :=
  if state.url = "" then state
  else
    { state with
      links := state.links ++ [⟨state.url, state.start, state.localCount⟩]
      url := "" }

def LinkState.visit (state : LinkState) (run : InlineRun) : LinkState :=
  let opened :=
    if run.target ≠ state.url then
      { state.flush with url := run.target, start := state.localCount }
    else state
  { opened with localCount := opened.localCount + run.text.length }

def linksOf (runs : List InlineRun) : List Link :=
  (runs.foldl LinkState.visit {}).flush.links

/-- The formatting all runs agree on, unless it is plain. -/
def formattingOf (first : InlineRun) (runs : List InlineRun) : Option Formatting :=
  let style := first.style
  if runs.all (fun run => sameFormatting run.style style) && !plainFormatting style then
    some ⟨style.bold, style.italic, style.underline, style.strikethrough, style.script⟩
  else none

def applyInline (runs : List InlineRun) (item : TextItem) : TextItem :=
  let item := { item with text := runsText runs, orig := runsText runs }
  match runs with
  | [] => item
  | first :: _ =>
    let item := { item with formatting := (formattingOf first runs).or item.formatting }
    match linksOf runs with
    | [] => item
    | link :: links => { item with hyperlink := some link.url, hyperlinks := link :: links }

/-- The part of the fold's document that texts are added to. -/
structure Fold where
  texts : List TextItem := []
  children : List (String × String) := []
  emitted : ℕ := 0

/-- `add_text`; the caller writes the text of the item it added. -/
def Fold.addText (fold : Fold) (parent : String) (write : TextItem → TextItem) : Fold :=
  let selfRef := "#/texts/" ++ toString fold.texts.length
  { texts := fold.texts ++ [write { selfRef := selfRef, parent := parent }]
    children := fold.children ++ [(parent, selfRef)]
    emitted := fold.emitted + 1 }

def flushInline (fold : Fold) (runs : List InlineRun) (parent : String) : Fold :=
  if trimRuns runs = [] then fold else fold.addText parent (applyInline (trimRuns runs))

/-! ### Links -/

/-- The longest stretches of runs of one target. -/
def targetStretches (runs : List InlineRun) : List (List InlineRun) :=
  KeyedStretches.stretches InlineRun.target runs

/-- The target of a stretch. -/
def stretchTarget (stretch : List InlineRun) : String :=
  (stretch.head?.map InlineRun.target).getD ""

/-- The links of stretches whose text begins at an offset. -/
def linksAt (offset : ℕ) : List (List InlineRun) → List Link
  | [] => []
  | stretch :: stretches =>
    let stop := offset + (runsText stretch).length
    (if stretchTarget stretch = "" then [] else [⟨stretchTarget stretch, offset, stop⟩]) ++
      linksAt stop stretches

/-- The code points of a text that a link covers. -/
def Link.slice (link : Link) (text : List Char) : List Char :=
  (text.drop link.charStart).take (link.charEnd - link.charStart)

/-- An item has the links of its runs: one for each stretch of a target, and each covers the text of
its stretch. -/
structure LinksExact (runs : List InlineRun) (item : TextItem) : Prop where
  entries : item.hyperlinks = linksAt 0 (targetStretches runs)
  slices : List.Forall₂
    (fun link stretch =>
      link.url = stretchTarget stretch ∧ link.slice item.text = runsText stretch)
    item.hyperlinks ((targetStretches runs).filter (fun stretch => stretchTarget stretch ≠ ""))
  increasing : item.hyperlinks.Pairwise (fun left right => left.charEnd ≤ right.charStart)
  bounded : ∀ link ∈ item.hyperlinks, link.charStart ≤ link.charEnd ∧ link.charEnd ≤ item.text.length
  own : item.hyperlink = item.hyperlinks.head?.map Link.url

theorem linksAt_append (offset : ℕ) (left right : List (List InlineRun)) :
  linksAt offset (left ++ right) =
    linksAt offset left ++ linksAt (offset + (runsText left.flatten).length) right
  := by
  induction left generalizing offset with
  | nil => rfl
  | cons stretch left ih =>
    rw [cons_append, linksAt, linksAt, ih, append_assoc, flatten_cons,
      runsText_append, length_append, Nat.add_assoc]

/-- The state of the loop behind some runs: the last stretch is open, the others are written. -/
structure Reads (runs : List InlineRun) (state : LinkState) (before : List (List InlineRun))
    (current : List InlineRun) : Prop where
  stretches : targetStretches runs = before ++ [current]
  url : state.url = stretchTarget current
  links : state.links = linksAt 0 before
  start : state.start = (runsText before.flatten).length
  localCount : state.localCount = (runsText runs).length

/-- The runs of a stretch have its target. -/
theorem target_eq_of_mem {runs stretch : List InlineRun} (h : stretch ∈ targetStretches runs) :
  ∀ run ∈ stretch, run.target = stretchTarget stretch
  := by
  intro run hrun
  cases stretch with
  | nil => cases hrun
  | cons first rest => exact key_eq_of_mem_stretches h _ hrun _ mem_cons_self

/-- Flushing writes the open stretch. -/
theorem Reads.flush {runs : List InlineRun} {state : LinkState} {before : List (List InlineRun)}
    {current : List InlineRun} (h : Reads runs state before current) :
  state.flush.links = linksAt 0 (targetStretches runs)
  := by
  have hcount : state.localCount = state.start + (runsText current).length := by
    rw [h.localCount, h.start, ← flatten_stretches InlineRun.target runs,
      ← targetStretches, h.stretches]
    simp
  rw [h.stretches, linksAt_append, Nat.zero_add, ← h.links, ← h.start, LinkState.flush, linksAt,
    ← h.url, ← hcount]
  split <;> simp [linksAt]

/-- A run joins the open stretch, or the stretch is written and the run opens one. -/
theorem Reads.visit {runs : List InlineRun} {state : LinkState} {before : List (List InlineRun)}
    {current : List InlineRun} (h : Reads runs state before current) (run : InlineRun) :
  ∃ before' current', Reads (runs ++ [run]) (state.visit run) before' current'
  := by
  have hmem : current ∈ targetStretches runs := h.stretches ▸ mem_concat_self
  have hne : current ≠ [] := ne_nil_of_mem_stretches hmem
  by_cases htarget : run.target = state.url
  · use before, current ++ [run]
    have hstate : state.visit run =
        { state with localCount := state.localCount + run.text.length } := by
      simp [LinkState.visit, htarget]
    rw [hstate]
    constructor
    case stretches =>
      apply stretches_concat_of_eq h.stretches
      intro other hother
      rw [target_eq_of_mem hmem other hother, htarget, h.url]
    case url =>
      obtain ⟨first, rest, rfl⟩ := exists_cons_of_ne_nil hne
      exact h.url
    case links => exact h.links
    case start => exact h.start
    case localCount => simp [h.localCount]
  · use targetStretches runs, [run]
    have hstate : state.visit run =
        { state.flush with
          url := run.target
          start := state.localCount
          localCount := state.flush.localCount + run.text.length } := by
      simp [LinkState.visit, htarget]
    have hcount : state.flush.localCount = state.localCount := by
      rw [LinkState.flush]
      split <;> rfl
    rw [hstate]
    constructor
    case stretches =>
      apply stretches_concat_of_ne
      intro last hlast heq
      have hlast' : last ∈ current.getLast? := by
        rw [← flatten_stretches InlineRun.target runs, ← targetStretches,
          h.stretches] at hlast
        simpa [getLast?_append_of_ne_nil _ hne] using hlast
      apply htarget
      rw [h.url, ← target_eq_of_mem hmem last (mem_of_getLast? hlast'), heq]
    case url => rfl
    case links => exact h.flush
    case start =>
      rw [targetStretches, flatten_stretches]
      exact h.localCount
    case localCount => simp [hcount, h.localCount]

theorem exists_reads {runs : List InlineRun} (h : runs ≠ []) :
  ∃ before current, Reads runs (runs.foldl LinkState.visit {}) before current
  := by
  induction runs using reverseRecOn with
  | nil => exact absurd rfl h
  | append_singleton runs run ih =>
    rw [foldl_append]
    rcases eq_or_ne runs [] with rfl | hne
    · use [], [run]
      have hstate : LinkState.visit {} run =
          { links := [], localCount := run.text.length, start := 0, url := run.target } := by
        by_cases htarget : run.target = "" <;> simp [LinkState.visit, LinkState.flush, htarget]
      constructor
      case stretches => rfl
      case localCount => simp [hstate]
      all_goals simp [hstate, stretchTarget, linksAt]
    · obtain ⟨before, current, hreads⟩ := ih hne
      exact hreads.visit run

/-- The loop writes the links of the stretches. -/
theorem linksOf_eq (runs : List InlineRun) :
  linksOf runs = linksAt 0 (targetStretches runs)
  := by
  rcases eq_or_ne runs [] with rfl | hne
  · rfl
  · obtain ⟨before, current, hreads⟩ := exists_reads hne
    exact hreads.flush

/-- Links begin at the offset or behind it, do not stop before they start, and stop in the text. -/
theorem linksAt_bounds {stretches : List (List InlineRun)} {offset : ℕ} {link : Link}
    (h : link ∈ linksAt offset stretches) :
  offset ≤ link.charStart ∧ link.charStart ≤ link.charEnd ∧
    link.charEnd ≤ offset + (runsText stretches.flatten).length
  := by
  induction stretches generalizing offset with
  | nil => cases h
  | cons stretch stretches ih =>
    rw [flatten_cons, runsText_append, length_append]
    rw [linksAt] at h
    rcases mem_append.mp h with h | h
    · split at h
      · cases h
      · obtain rfl := mem_singleton.mp h
        dsimp only
        omega
    · have hbounds := ih h
      omega

theorem linksAt_increasing (offset : ℕ) (stretches : List (List InlineRun)) :
  (linksAt offset stretches).Pairwise (fun left right => left.charEnd ≤ right.charStart)
  := by
  induction stretches generalizing offset with
  | nil => exact List.Pairwise.nil
  | cons stretch stretches ih =>
    rw [linksAt]
    apply pairwise_append.mpr
    refine ⟨?_, ih _, ?_⟩
    · split
      · exact List.Pairwise.nil
      · exact pairwise_singleton _ _
    · intro left hleft right hright
      split at hleft
      · cases hleft
      · obtain rfl := mem_singleton.mp hleft
        exact (linksAt_bounds hright).1

/-- A link covers the text of its stretch. -/
theorem linksAt_slices (front : List Char) (stretches : List (List InlineRun)) :
  List.Forall₂
    (fun link stretch =>
      link.url = stretchTarget stretch ∧
        link.slice (front ++ runsText stretches.flatten) = runsText stretch)
    (linksAt front.length stretches)
    (stretches.filter (fun stretch => stretchTarget stretch ≠ ""))
  := by
  induction stretches generalizing front with
  | nil => exact List.Forall₂.nil
  | cons stretch stretches ih =>
    have hrest := ih (front ++ runsText stretch)
    rw [length_append, append_assoc, ← runsText_append] at hrest
    rw [linksAt, flatten_cons]
    by_cases htarget : stretchTarget stretch = ""
    · simpa [htarget] using hrest
    · rw [filter_cons_of_pos (by simpa using htarget), if_neg htarget]
      apply List.Forall₂.cons _ hrest
      simp [Link.slice]

theorem applyInline_text (runs : List InlineRun) (item : TextItem) :
  (applyInline runs item).text = runsText runs
  := by
  cases runs with
  | nil => rfl
  | cons first rest =>
    rw [applyInline]
    cases linksOf (first :: rest) <;> rfl

/-- An item has the links of the runs its text is made of. -/
theorem applyInline_linksExact (runs : List InlineRun) (selfRef parent : String) :
  LinksExact runs (applyInline runs { selfRef := selfRef, parent := parent })
  := by
  have hlinks : (applyInline runs { selfRef := selfRef, parent := parent }).hyperlinks =
      linksAt 0 (targetStretches runs) := by
    rw [← linksOf_eq]
    cases runs with
    | nil => rfl
    | cons first rest =>
      rw [applyInline]
      cases linksOf (first :: rest) <;> rfl
  have hflatten : (targetStretches runs).flatten = runs := flatten_stretches _ runs
  constructor
  case entries => exact hlinks
  case slices =>
    rw [hlinks, applyInline_text]
    have hslices := linksAt_slices [] (targetStretches runs)
    rwa [hflatten] at hslices
  case increasing =>
    rw [hlinks]
    apply linksAt_increasing
  case bounded =>
    rw [hlinks, applyInline_text]
    intro link hlink
    have hbounds := linksAt_bounds hlink
    rw [hflatten] at hbounds
    omega
  case own =>
    cases runs with
    | nil => rfl
    | cons first rest =>
      rw [applyInline]
      cases linksOf (first :: rest) <;> rfl

end GRParse.Confluence.Inline
