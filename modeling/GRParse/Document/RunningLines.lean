import GRParse.Document.PageNumber
import GRParse.Layout.Geometry
import Mathlib.Data.Set.Card
import Mathlib.Data.Rat.Floor

/-!
# Running lines

Which of the lines on the pages of a document run through it: those whose block stands in a band at
the top or at the bottom of its page, and whose text recurs there on enough pages or is a page
number.  Once these are taken out no other line does: a block is taken out of its page only with
its band, so the lines that stay have no more company in the bands than before.
-/

namespace GRParse.Running

open Layout

/-! ### Lines -/

/-- A prose item, placed on its page. -/
structure Line where
  arenaIndex : ℕ
  page : ℤ
  box : TopDownBox
  deriving DecidableEq

/-- The lines overlap horizontally and sit within the shorter line height of each other. -/
def neighbours (a b : TopDownBox) : Bool :=
  0 < min a.right b.right - max a.left b.left &&
    max 0 (max (b.top - a.bottom) (a.top - b.bottom)) ≤ min a.height b.height

theorem neighbours_comm (a b : TopDownBox) :
  neighbours a b = neighbours b a
  := by
  rw [neighbours, neighbours, min_comm a.right, max_comm a.left, max_comm (b.top - a.bottom),
    min_comm a.height]

/-- What the repair goes by. -/
structure RepairOptions where
  minimumRepeatPages : ℤ := 3
  minimumRepeatShare : ℚ := 2 / 5
  bandFraction : ℚ := 3 / 25
  maximumFurnitureWords : ℤ := 12
  migrateFurnitureTree : Bool := false

/-- On how many pages a text recurs at least. -/
def RepairOptions.threshold (options : RepairOptions) (pages : ℤ) : ℤ :=
  max options.minimumRepeatPages ⌈options.minimumRepeatShare * pages⌉

/-! ### Blocks -/

/-- A line of the same page is next. -/
def Next (placed : Set Line) (a b : Line) : Prop :=
  b ∈ placed ∧ b.page = a.page ∧ neighbours a.box b.box

/-- The lines that a line is connected with. -/
def block (placed : Set Line) (line : Line) : Set Line :=
  { other | Relation.ReflTransGen (Next placed) line other }

variable {placed others : Set Line} {line other : Line}

theorem mem_of_mem_block (h : other ∈ block placed line) (hline : line ∈ placed) :
  other ∈ placed
  := by
  induction h with
  | refl => exact hline
  | tail _ hstep _ => exact hstep.1

theorem page_of_mem_block (h : other ∈ block placed line) :
  other.page = line.page
  := by
  induction h with
  | refl => rfl
  | tail _ hstep ih => rw [hstep.2.1, ih]

theorem block_mono (hsubset : others ⊆ placed) (line : Line) :
  block others line ⊆ block placed line
  := by
  intro other h
  have hnext : Next others ≤ Next placed := fun _ _ hstep => ⟨hsubset hstep.1, hstep.2⟩
  exact Relation.ReflTransGen.mono hnext _ _ h

theorem block_symm (hline : line ∈ placed) (h : other ∈ block placed line) :
  line ∈ block placed other
  := by
  induction h with
  | refl => exact .refl
  | tail hpath hstep ih =>
    refine .head ⟨mem_of_mem_block hpath hline, hstep.2.1.symm, ?_⟩ ih
    rw [neighbours_comm]
    exact hstep.2.2

/-- Connected lines have the same block. -/
theorem block_eq (hline : line ∈ placed) (h : other ∈ block placed line) :
  block placed other = block placed line
  := by
  apply Set.Subset.antisymm
  · exact fun _ hthird => h.trans hthird
  · exact fun _ hthird => (block_symm hline h).trans hthird

/-- A block that keeps its lines stays as it is. -/
theorem block_of_subset (hsubset : others ⊆ placed) {line : Line}
    (h : block placed line ⊆ others) :
  block others line = block placed line
  := by
  apply Set.Subset.antisymm (block_mono hsubset line)
  intro other hother
  induction hother with
  | refl => exact .refl
  | tail hpath hstep ih => exact ih.tail ⟨h (hpath.tail hstep), hstep.2⟩

/-! ### Bands -/

/-- The lines lie wholly in the top band of a page of the given height. -/
def InTopBand (height fraction : ℚ) (lines : Set Line) : Prop :=
  ∀ line ∈ lines, 0 ≤ line.box.top ∧ line.box.bottom ≤ height ∧ line.box.bottom ≤ height * fraction

/-- The lines lie wholly in the bottom band of a page of the given height. -/
def InBottomBand (height fraction : ℚ) (lines : Set Line) : Prop :=
  ∀ line ∈ lines, 0 ≤ line.box.top ∧ line.box.bottom ≤ height ∧
    height * (1 - fraction) ≤ line.box.top

/-! ### Running lines -/

section Running

variable (heights : PageHeights) (options : RepairOptions) (texts : ℕ → List UInt8) (pages : ℤ)

/-- The line is short, and there is something to compare it by. -/
def Short (line : Line) : Prop :=
  wordCount (texts line.arenaIndex) ≤ options.maximumFurnitureWords ∧
    normalizeRunningText (texts line.arenaIndex) ≠ []

/-- A short line whose block lies wholly in the top or in the bottom band of its page. -/
structure Candidate (placed : Set Line) (line : Line) : Prop where
  mem : line ∈ placed
  band : ∃ height, heights line.page = some height ∧
    (InTopBand height options.bandFraction (block placed line) ∨
      InBottomBand height options.bandFraction (block placed line))
  short : Short options texts line

/-- The pages on which a candidate has the normalized text of the line. -/
def recurrence (placed : Set Line) (line : Line) : Set ℤ :=
  { page | ∃ other, Candidate heights options texts placed other ∧ other.page = page ∧
    normalizeRunningText (texts other.arenaIndex) = normalizeRunningText (texts line.arenaIndex) }

/-- A candidate that recurs on enough pages, or is a page number. -/
def Runs (placed : Set Line) (line : Line) : Prop :=
  Candidate heights options texts placed line ∧
    (options.threshold pages ≤ (recurrence heights options texts placed line).ncard ∨
      isPageNumber (texts line.arenaIndex) pages)

variable {heights options texts pages}

/-- Of a block that is in no band, no line runs. -/
theorem Candidate.of_mem_block (hline : line ∈ placed) (hother : other ∈ block placed line)
    (h : Candidate heights options texts placed other) (hshort : Short options texts line) :
  Candidate heights options texts placed line
  := by
  obtain ⟨height, hheight, hband⟩ := h.band
  rw [block_eq hline hother] at hband
  rw [page_of_mem_block hother] at hheight
  exact ⟨hline, ⟨height, hheight, hband⟩, hshort⟩

/-- Without the running lines there are no new candidates. -/
theorem Candidate.of_stays {line : Line}
    (h : Candidate heights options texts
      { line ∈ placed | ¬ Runs heights options texts pages placed line } line) :
  Candidate heights options texts placed line
  := by
  have hsubset : { line ∈ placed | ¬ Runs heights options texts pages placed line } ⊆ placed :=
    fun _ hmem => hmem.1
  have hline := hsubset h.mem
  by_cases hcandidate : ∃ other ∈ block placed line, Candidate heights options texts placed other
  · obtain ⟨other, hother, hcandidate⟩ := hcandidate
    exact hcandidate.of_mem_block hline hother h.short
  · -- The block of the line is in no band, so that it has stayed as it was.
    have hblock := @block_of_subset _ _ hsubset line fun other hother =>
      ⟨mem_of_mem_block hother hline, fun hruns => hcandidate ⟨other, hother, hruns.1⟩⟩
    have hband := h.band
    rw [hblock] at hband
    exact ⟨hline, hband, h.short⟩

/-- Without the running lines, no line runs. -/
theorem not_runs_stays (finite : placed.Finite) (line : Line) :
  ¬ Runs heights options texts pages
    { line ∈ placed | ¬ Runs heights options texts pages placed line } line
  := by
  rintro ⟨hcandidate, hrecurs⟩
  apply hcandidate.mem.2
  refine ⟨hcandidate.of_stays, hrecurs.imp_left fun hthreshold => hthreshold.trans ?_⟩
  refine Int.ofNat_le.mpr (Set.ncard_le_ncard ?_ ?_)
  · rintro page ⟨other, hother, hpage, htext⟩
    exact ⟨other, hother.of_stays, hpage, htext⟩
  · refine (finite.image Line.page).subset ?_
    rintro page ⟨other, hother, hpage, -⟩
    exact ⟨other, hother.mem, hpage⟩

end Running

end GRParse.Running
