import GRParse.Assembly.Page
import GRParse.Lib.DisjointSets

/-!
# Overlapping regions

The raw detections of a page settle before they are read.  A picture over most of the page that
holds a line is the page itself.  Tables that overlap are one table detected more than once, also
along a chain of overlaps, and one of each such group is kept.  A region that lies in a kept table
belongs to it.

A region goes by itself together with its index, so what the source keeps for each index is here
a function of these.  Shares and areas are exact.
-/

namespace GRParse.Assembly

open DisjointSets List

/-! ### Thresholds -/

/-- `kFullPageShare`: a picture over more of the page is the page. -/
def fullPageShare : ℚ := 9 / 10

/-- `kSameDetection`. -/
def sameDetectionShare : ℚ := 8 / 10

/-- `kNestedShare`. -/
def nestedShare : ℚ := 8 / 10

/-- `kTableConfidenceMargin`. -/
def tableConfidenceMargin : ℚ := 2 / 10

/-- `kTableAreaRatio`. -/
def tableAreaRatio : ℚ := 2

/-! ### Areas -/

def area (region : LayoutRegion) : ℚ :=
  max 0 ((region.right : ℚ) - region.left) * max 0 ((region.bottom : ℚ) - region.top)

def intersection (region other : LayoutRegion) : ℚ :=
  let width := min region.right other.right - max region.left other.left
  let height := min region.bottom other.bottom - max region.top other.top
  if 0 < width ∧ 0 < height then (width : ℚ) * height else 0

/-- The share of the inner region that lies in the outer one. -/
def insideShare (inner outer : LayoutRegion) : ℚ :=
  if 0 < area inner then intersection inner outer / area inner else 0

/-- Whether two boxes are one detection: by what they share of their union, or by the part of one
that is in the other. -/
def sameDetection (region other : LayoutRegion) : Bool :=
  let shared := intersection region other
  let either := area region + area other - shared
  decide (0 < shared) &&
    (decide (sameDetectionShare < shared / either) ||
      decide (sameDetectionShare < insideShare region other) ||
      decide (sameDetectionShare < insideShare other region))

theorem intersection_comm (region other : LayoutRegion) :
  intersection region other = intersection other region
  := by
  unfold intersection
  rw [min_comm region.right, max_comm region.left, min_comm region.bottom, max_comm region.top]

theorem sameDetection_comm (region other : LayoutRegion) :
  sameDetection region other = sameDetection other region
  := by
  unfold sameDetection
  dsimp only
  rw [intersection_comm region other, add_comm (area region), Bool.or_assoc, Bool.or_assoc,
    Bool.or_comm (decide (_ < insideShare region other))]

/-! ### What is dropped -/

/-- `holds_a_line`. -/
def holdsALine (region : LayoutRegion) (lines : List OcrLine) : Bool :=
  lines.any fun line => line.readable && region.box.contains (boundingBox line).center

/-- `nests_in_tables`: the floats and wrappers are never nested. -/
def nestsInTables (label : String) : Bool :=
  label != "table" && label != "picture" && label != "form" && label != "key_value_region" &&
    label != "document_index"

def pageArea (pageWidth pageHeight : ℤ) : ℚ :=
  (max pageWidth 0 : ℚ) * (max pageHeight 0 : ℚ)

/-- Whether a region is a picture of the whole page, with some of its text. -/
def fillsPage (lines : List OcrLine) (pageWidth pageHeight : ℤ) (region : LayoutRegion) : Bool :=
  region.label == "picture" &&
    decide (fullPageShare < area region / pageArea pageWidth pageHeight) &&
    holdsALine region lines

/-- Which regions are dropped so far. -/
abbrev Dropped := RegionRef → Bool

/-- The pictures of the whole page are dropped, where the page has a size. -/
def dropPagePictures (regions : List RegionRef) (lines : List OcrLine)
    (pageWidth pageHeight : ℤ) (dropped : Dropped) : Dropped :=
  if 0 < pageArea pageWidth pageHeight then
    regions.foldl (fun dropped region =>
      if fillsPage lines pageWidth pageHeight region.1 then Function.update dropped region true
      else dropped) dropped
  else dropped

/-! ### The table of a group -/

/-- Whether no other member scores past the margin above a candidate that is not large enough. -/
def eligible (group : List RegionRef) (candidate : RegionRef) : Bool :=
  !group.any fun other =>
    !(other.2 == candidate.2 || decide (area other.1 ≤ 0)) &&
      (decide (area candidate.1 / area other.1 ≤ tableAreaRatio) &&
        decide (tableConfidenceMargin < other.1.confidence - candidate.1.confidence))

/-- The better of the pick so far and the next candidate. -/
def betterTable (group : List RegionRef) (best : Option RegionRef) (candidate : RegionRef) :
    Option RegionRef :=
  if eligible group candidate then
    if best.all fun pick => decide (area pick.1 < area candidate.1) &&
        decide (pick.1.confidence - candidate.1.confidence ≤ tableConfidenceMargin) then
      some candidate
    else best
  else best

/-- `kept_table`: the pick, or else the first of the group. -/
def keptTable (group : List RegionRef) : Option RegionRef :=
  (group.foldl (betterTable group) none).or group.head?

/-! ### Groups of tables -/

def tablesOf (regions : List RegionRef) : List RegionRef :=
  regions.filter fun region => region.1.label == "table"

/-- A table and each of the later ones. -/
def laterPairs : List RegionRef → List (RegionRef × RegionRef)
  | [] => []
  | table :: tables => tables.map (table, ·) ++ laterPairs tables

/-- The tables, united where two are one detection. -/
def uniteTables (tables : List RegionRef) : Forest RegionRef :=
  (laterPairs tables).foldl (fun forest pair =>
    if sameDetection pair.1.1 pair.2.1 then forest.union pair.1 pair.2 else forest)
    (Forest.discrete RegionRef)

/-- The tables below a root, in order. -/
def gatherGroup (root : RegionRef) (tables : List RegionRef) (forest : Forest RegionRef) :
    Forest RegionRef × List RegionRef :=
  tables.foldl (fun gathered table =>
    let found := gathered.1.find table
    (found.1, if found.2 = root then gathered.2 ++ [table] else gathered.2)) (forest, [])

/-- All members of a group but the kept one are dropped. -/
def dropMembers (group : List RegionRef) (dropped : Dropped) : Dropped :=
  group.foldl (fun dropped member =>
    Function.update dropped member (decide (some member ≠ keptTable group))) dropped

/-- One table of the loop over the groups: a root settles its group. -/
def settleGroup (tables : List RegionRef) (state : Forest RegionRef × Dropped)
    (table : RegionRef) : Forest RegionRef × Dropped :=
  let found := state.1.find table
  if found.2 = table then
    let gathered := gatherGroup table tables found.1
    if gathered.2.length < 2 then (gathered.1, state.2)
    else (gathered.1, dropMembers gathered.2 state.2)
  else (found.1, state.2)

/-- The loop over the groups: each keeps one table. -/
def settleTables (tables : List RegionRef) (dropped : Dropped) : Dropped :=
  (tables.foldl (settleGroup tables) (uniteTables tables, dropped)).2

/-! ### Nested regions -/

/-- Whether a region lies in one of the tables that are kept. -/
def insideTable (tables : List RegionRef) (dropped : Dropped) (region : LayoutRegion) : Bool :=
  tables.any fun table => !dropped table && decide (nestedShare < insideShare region table.1)

/-- One region of the loop over the nested ones. -/
def dropNested (tables : List RegionRef) (dropped : Dropped) (region : RegionRef) : Dropped :=
  if dropped region || !nestsInTables region.1.label then dropped
  else if insideTable tables dropped region.1 then Function.update dropped region true
  else dropped

/-! ### The whole pass -/

/-- Which regions are dropped at the end. -/
def droppedRegions (regions : List RegionRef) (lines : List OcrLine)
    (pageWidth pageHeight : ℤ) : Dropped :=
  let tables := tablesOf regions
  let pictures := dropPagePictures regions lines pageWidth pageHeight fun _ => false
  regions.foldl (dropNested tables) (settleTables tables pictures)

/-- The regions that are kept, with their indices. -/
def keptRegions (regions : List LayoutRegion) (lines : List OcrLine)
    (pageWidth pageHeight : ℤ) : List RegionRef :=
  regions.zipIdx.filter fun region =>
    !droppedRegions regions.zipIdx lines pageWidth pageHeight region

/-- `resolve_region_overlaps`. -/
def resolveRegionOverlaps (regions : List LayoutRegion) (lines : List OcrLine)
    (pageWidth pageHeight : ℤ) : List LayoutRegion :=
  (keptRegions regions lines pageWidth pageHeight).map Prod.fst

/-! ### Pictures and nested regions -/

/-- Marking the members that have a property marks just these. -/
theorem foldl_mark_iff (p : RegionRef → Bool) (regions : List RegionRef) (dropped : Dropped)
    (region : RegionRef) :
  regions.foldl (fun dropped region =>
      if p region then Function.update dropped region true else dropped) dropped region = true ↔
    dropped region = true ∨ region ∈ regions ∧ p region = true
  := by
  induction regions generalizing dropped with
  | nil => simp
  | cons next regions ih =>
    rw [foldl_cons, ih, mem_cons]
    by_cases heq : region = next
    · subst heq
      by_cases hp : p region = true <;> simp [hp]
    · by_cases hp : p next = true <;> simp [hp, heq]

theorem dropPagePictures_iff (regions : List RegionRef) (lines : List OcrLine)
    (pageWidth pageHeight : ℤ) (region : RegionRef) :
  dropPagePictures regions lines pageWidth pageHeight (fun _ => false) region = true ↔
    0 < pageArea pageWidth pageHeight ∧ region ∈ regions ∧
      fillsPage lines pageWidth pageHeight region.1 = true
  := by
  unfold dropPagePictures
  split
  case isTrue hpos =>
    rw [foldl_mark_iff fun region => fillsPage lines pageWidth pageHeight region.1]
    simp [hpos]
  case isFalse hpos => simp [hpos]

variable {tables : List RegionRef}

theorem insideTable_congr {dropped dropped' : Dropped}
    (h : ∀ table ∈ tables, dropped' table = dropped table) (region : LayoutRegion) :
  insideTable tables dropped' region = insideTable tables dropped region
  := by
  unfold insideTable
  induction tables with
  | nil => rfl
  | cons table tables ih =>
    rw [any_cons, any_cons, h table (mem_cons_self ..),
      ih fun table hmem => h table (mem_cons_of_mem _ hmem)]

/-- A table is not nested itself. -/
theorem dropNested_table {region table : RegionRef} {dropped : Dropped}
    (h : nestsInTables table.1.label = false) :
  dropNested tables dropped region table = dropped table
  := by
  unfold dropNested
  split
  case isTrue => rfl
  case isFalse hcond =>
    split
    case isTrue =>
      apply Function.update_of_ne
      rintro rfl
      simp [h] at hcond
    case isFalse => rfl

theorem dropNested_iff (tables : List RegionRef) (dropped : Dropped) (next region : RegionRef) :
  dropNested tables dropped next region = true ↔
    dropped region = true ∨ region = next ∧ nestsInTables region.1.label = true ∧
      insideTable tables dropped region.1 = true
  := by
  unfold dropNested
  by_cases heq : region = next
  · subst heq
    split
    case isTrue hcond =>
      rw [Bool.or_eq_true, Bool.not_eq_true'] at hcond
      rcases hcond with hdropped | hlabel
      · simp [hdropped]
      · simp [hlabel]
    case isFalse hcond =>
      simp at hcond
      split
      case isTrue hinside => simp [hcond, hinside]
      case isFalse hinside => simp [hcond, hinside]
  · split
    case isTrue => simp [heq]
    case isFalse => split <;> simp [heq]

/-- The nested regions are told by the tables that were kept before the loop. -/
theorem foldl_dropNested_iff {dropped : Dropped}
    (htables : ∀ table ∈ tables, nestsInTables table.1.label = false) (regions : List RegionRef)
    (region : RegionRef) :
  regions.foldl (dropNested tables) dropped region = true ↔
    dropped region = true ∨ region ∈ regions ∧ nestsInTables region.1.label = true ∧
      insideTable tables dropped region.1 = true
  := by
  induction regions generalizing dropped with
  | nil => simp
  | cons next regions ih =>
    have hsame : insideTable tables (dropNested tables dropped next) region.1 =
        insideTable tables dropped region.1 :=
      insideTable_congr (fun table hmem => dropNested_table (htables table hmem)) region.1
    rw [foldl_cons, ih, hsame, dropNested_iff, mem_cons]
    tauto

/-! ### The kept table -/

variable {group : List RegionRef}

theorem betterTable_mem {best : Option RegionRef} {candidate table : RegionRef}
    (h : betterTable group best candidate = some table) :
  best = some table ∨ table = candidate
  := by
  unfold betterTable at h
  split at h
  case isTrue =>
    split at h
    case isTrue => exact .inr (Option.some.inj h).symm
    case isFalse => exact .inl h
  case isFalse => exact .inl h

variable {table : RegionRef}

theorem foldl_betterTable_mem {group candidates : List RegionRef} {best : Option RegionRef}
    (h : candidates.foldl (betterTable group) best = some table) :
  best = some table ∨ table ∈ candidates
  := by
  induction candidates generalizing best with
  | nil => exact .inl h
  | cons candidate candidates ih =>
    rcases ih h with hbest | hmem
    · rcases betterTable_mem hbest with hbest | rfl
      · exact .inl hbest
      · exact .inr (mem_cons_self ..)
    · exact .inr (mem_cons_of_mem _ hmem)

/-- A group keeps one of its members. -/
theorem keptTable_mem (h : keptTable group = some table) :
  table ∈ group
  := by
  rcases Option.or_eq_some_iff.mp h with hbest | ⟨_, hhead⟩
  · rcases foldl_betterTable_mem hbest with hnone | hmem
    · cases hnone
    · exact hmem
  · exact mem_of_head? hhead

theorem exists_keptTable {member : RegionRef} (h : member ∈ group) :
  ∃ table, keptTable group = some table
  := by
  apply Option.isSome_iff_exists.mp
  unfold keptTable
  cases group with
  | nil => cases h
  | cons first group => simp

/-! ### Groups of tables -/

/-- Two tables of a list that are one detection. -/
def OneDetection (tables : List RegionRef) (table other : RegionRef) : Prop :=
  table ∈ tables ∧ other ∈ tables ∧ sameDetection table.1 other.1 = true

/-- A chain of tables, each one detection with the next one. -/
abbrev Chained (tables : List RegionRef) : RegionRef → RegionRef → Prop :=
  Relation.EqvGen (OneDetection tables)

variable {table other : RegionRef}

theorem mem_of_mem_laterPairs (h : (table, other) ∈ laterPairs tables) :
  table ∈ tables ∧ other ∈ tables
  := by
  induction tables with
  | nil => cases h
  | cons first tables ih =>
    rcases mem_append.mp h with hfirst | hlater
    · obtain ⟨later, hmem, heq⟩ := mem_map.mp hfirst
      obtain ⟨rfl, rfl⟩ := Prod.mk.inj heq
      exact ⟨mem_cons_self .., mem_cons_of_mem _ hmem⟩
    · obtain ⟨htable, hother⟩ := ih hlater
      exact ⟨mem_cons_of_mem _ htable, mem_cons_of_mem _ hother⟩

/-- Two tables make a pair in one of the orders. -/
theorem mem_laterPairs (htable : table ∈ tables) (hother : other ∈ tables) (hne : table ≠ other) :
  (table, other) ∈ laterPairs tables ∨ (other, table) ∈ laterPairs tables
  := by
  induction tables with
  | nil => cases htable
  | cons first tables ih =>
    rw [laterPairs, mem_append, mem_append, mem_map, mem_map]
    rcases mem_cons.mp htable with rfl | hlater
    · rcases mem_cons.mp hother with rfl | hlater'
      · exact absurd rfl hne
      · exact .inl (.inl ⟨other, hlater', rfl⟩)
    · rcases mem_cons.mp hother with rfl | hlater'
      · exact .inr (.inl ⟨table, hlater, rfl⟩)
      · rcases ih hlater hlater' with hpair | hpair
        · exact .inl (.inr hpair)
        · exact .inr (.inr hpair)

/-- Two tables have one root just when a chain links them. -/
theorem rep_uniteTables (tables : List RegionRef) (table other : RegionRef) :
  (uniteTables tables).rep table = (uniteTables tables).rep other ↔ Chained tables table other
  := by
  have hunite : uniteTables tables = (Forest.discrete RegionRef).unionAll
      ((laterPairs tables).filter fun pair => sameDetection pair.1.1 pair.2.1) := by
    rw [uniteTables, Forest.unionAll, foldl_filter]
  rw [hunite, Forest.links_discrete.unionAll]
  constructor
  · intro hgen
    induction hgen with
    | rel table other hrel =>
      rcases hrel with hfalse | hpair
      · exact hfalse.elim
      · obtain ⟨hpair, hsame⟩ := mem_filter.mp hpair
        obtain ⟨htable, hother⟩ := mem_of_mem_laterPairs hpair
        exact .rel _ _ ⟨htable, hother, hsame⟩
    | refl _ => exact .refl _
    | symm _ _ _ ih => exact .symm _ _ ih
    | trans _ _ _ _ _ ih ih' => exact .trans _ _ _ ih ih'
  · intro hchain
    induction hchain with
    | rel table other hone =>
      obtain ⟨htable, hother, hsame⟩ := hone
      by_cases heq : table = other
      · subst heq
        exact .refl _
      · rcases mem_laterPairs htable hother heq with hpair | hpair
        · exact .rel _ _ (.inr (mem_filter.mpr ⟨hpair, hsame⟩))
        · apply Relation.EqvGen.symm
          rw [sameDetection_comm] at hsame
          exact .rel _ _ (.inr (mem_filter.mpr ⟨hpair, hsame⟩))
    | refl _ => exact .refl _
    | symm _ _ _ ih => exact .symm _ _ ih
    | trans _ _ _ _ _ ih ih' => exact .trans _ _ _ ih ih'

/-- A chain stays among the tables. -/
theorem Chained.eq_or_mem (h : Chained tables table other) :
  table = other ∨ table ∈ tables ∧ other ∈ tables
  := by
  induction h with
  | rel _ _ hone => exact .inr ⟨hone.1, hone.2.1⟩
  | refl _ => exact .inl rfl
  | symm _ _ _ ih =>
    rcases ih with heq | hmem
    · exact .inl heq.symm
    · exact .inr hmem.symm
  | trans _ _ _ _ _ ih ih' =>
    rcases ih with rfl | hmem
    · exact ih'
    · rcases ih' with rfl | hmem'
      · exact .inr hmem
      · exact .inr ⟨hmem.1, hmem'.2⟩

section Groups

variable (tables : List RegionRef)

/-- The root of a table's group. -/
def rootOf (table : RegionRef) : RegionRef :=
  (uniteTables tables).rep table

/-- The tables below a root. -/
def groupOf (root : RegionRef) : List RegionRef :=
  tables.filter fun table => rootOf tables table = root

theorem rootOf_rootOf (table : RegionRef) :
  rootOf tables (rootOf tables table) = rootOf tables table
  := Forest.rep_of_root ((uniteTables tables).root_rep table)

variable {tables}

theorem mem_groupOf {table root : RegionRef} :
  table ∈ groupOf tables root ↔ table ∈ tables ∧ rootOf tables table = root
  := by
  rw [groupOf, mem_filter, decide_eq_true_iff]

/-- The root of a table is a table. -/
theorem rootOf_mem (h : table ∈ tables) : rootOf tables table ∈ tables := by
  have hchain := (rep_uniteTables tables _ _).mp (rootOf_rootOf tables table)
  rcases hchain.eq_or_mem with heq | hmem
  · rwa [heq]
  · exact hmem.1

/-- Gathering keeps the roots, and adds the tables below the root. -/
theorem foldl_gather_spec {forest : Forest RegionRef} (hrep : forest.rep = (uniteTables tables).rep)
    (root : RegionRef) (rest group : List RegionRef) :
  let gathered := rest.foldl (fun gathered table =>
    let found := gathered.1.find table
    (found.1, if found.2 = root then gathered.2 ++ [table] else gathered.2)) (forest, group)
  gathered.1.rep = (uniteTables tables).rep ∧
    gathered.2 = group ++ rest.filter fun table => rootOf tables table = root
  := by
  induction rest generalizing forest group with
  | nil => exact ⟨hrep, (append_nil _).symm⟩
  | cons table rest ih =>
    obtain ⟨hfound, hkept⟩ := forest.find_spec table
    have hroot : (forest.find table).2 = rootOf tables table := by
      rw [hfound, hrep, rootOf]
    obtain ⟨hreps, hgroup⟩ := ih (hkept.trans hrep)
      (if (forest.find table).2 = root then group ++ [table] else group)
    refine ⟨hreps, hgroup.trans ?_⟩
    rw [hroot]
    by_cases heq : rootOf tables table = root
    · simp [heq]
    · simp [heq]

theorem gatherGroup_spec {forest : Forest RegionRef} (hrep : forest.rep = (uniteTables tables).rep)
    (root : RegionRef) :
  (gatherGroup root tables forest).1.rep = (uniteTables tables).rep ∧
    (gatherGroup root tables forest).2 = groupOf tables root
  := foldl_gather_spec hrep root tables []

theorem foldl_update_apply (f : RegionRef → Bool) (group : List RegionRef) (dropped : Dropped)
    (table : RegionRef) :
  group.foldl (fun dropped member => Function.update dropped member (f member)) dropped table =
    if table ∈ group then f table else dropped table
  := by
  induction group generalizing dropped with
  | nil => simp
  | cons member group ih =>
    rw [foldl_cons, ih]
    by_cases heq : table = member
    · subst heq
      simp
    · simp [heq]

/-- In a group, all but the kept table are dropped. -/
theorem dropMembers_apply (group : List RegionRef) (dropped : Dropped) (table : RegionRef) :
  dropMembers group dropped table =
    if table ∈ group then decide (some table ≠ keptTable group) else dropped table
  := foldl_update_apply (fun member => decide (some member ≠ keptTable group)) group dropped table

/-- A table of a group of one is the one that is kept. -/
theorem keptTable_of_length_lt (hmem : table ∈ group) (h : group.length < 2) :
  keptTable group = some table
  := by
  obtain ⟨kept, hkept⟩ := exists_keptTable hmem
  obtain ⟨only, rfl⟩ := length_eq_one_iff.mp
    (Nat.le_antisymm (Nat.le_of_lt_succ h) (length_pos_of_mem hmem))
  have heq := eq_of_mem_singleton (keptTable_mem hkept)
  rw [eq_of_mem_singleton hmem, hkept, heq]

/-- Where the loop over the groups stands: the groups of some roots are settled. -/
structure Settling (tables settled : List RegionRef) (before : Dropped)
    (state : Forest RegionRef × Dropped) : Prop where
  reps : state.1.rep = (uniteTables tables).rep
  dropped : ∀ table, state.2 table =
    if table ∈ tables ∧ rootOf tables table ∈ settled then
      decide (some table ≠ keptTable (groupOf tables (rootOf tables table)))
    else before table

/-- One table of the loop: a root settles its group. -/
theorem Settling.step {settled : List RegionRef} {before : Dropped}
    {state : Forest RegionRef × Dropped} (h : Settling tables settled before state)
    (hbefore : ∀ table ∈ tables, before table = false) {root : RegionRef} (hroot : root ∈ tables) :
  Settling tables (settled ++ [root]) before (settleGroup tables state root)
  := by
  obtain ⟨hfound, hkept⟩ := state.1.find_spec root
  have hreps := hkept.trans h.reps
  have hrootOf : (state.1.find root).2 = rootOf tables root := by
    rw [hfound, h.reps, rootOf]
  unfold settleGroup
  dsimp only
  rw [hrootOf]
  split
  case isFalse hother =>
    -- no table is below one that is no root
    refine ⟨hreps, fun table => ?_⟩
    have hne : rootOf tables table ≠ root := by
      rintro rfl
      exact hother (rootOf_rootOf tables table)
    simp only [h.dropped, mem_append, mem_singleton, or_iff_left hne]
  case isTrue hself =>
    obtain ⟨hgathered, hgroup⟩ := gatherGroup_spec hreps root
    have hmem : root ∈ groupOf tables root := mem_groupOf.mpr ⟨hroot, hself⟩
    rw [hgroup]
    split
    case isTrue hlength =>
      refine ⟨hgathered, fun table => ?_⟩
      simp only [h.dropped, mem_append, mem_singleton]
      by_cases hbelow : table ∈ tables ∧ rootOf tables table = root
      · obtain ⟨htable, rfl⟩ := hbelow
        have hkept := keptTable_of_length_lt (mem_groupOf.mpr ⟨htable, rfl⟩) hlength
        simp [htable, hkept, hbefore table htable]
      · congr 1
        apply propext
        tauto
    case isFalse =>
      refine ⟨hgathered, fun table => ?_⟩
      simp only [dropMembers_apply, h.dropped, mem_append, mem_singleton, mem_groupOf]
      by_cases hbelow : table ∈ tables ∧ rootOf tables table = root
      · obtain ⟨htable, rfl⟩ := hbelow
        simp [htable]
      · rw [if_neg hbelow]
        congr 1
        apply propext
        tauto

theorem Settling.run {settled : List RegionRef} {before : Dropped}
    {state : Forest RegionRef × Dropped} (h : Settling tables settled before state)
    (hbefore : ∀ table ∈ tables, before table = false) {roots : List RegionRef}
    (hroots : ∀ root ∈ roots, root ∈ tables) :
  Settling tables (settled ++ roots) before (roots.foldl (settleGroup tables) state)
  := by
  induction roots generalizing settled state with
  | nil => rwa [append_nil]
  | cons root roots ih =>
    obtain ⟨hroot, hroots⟩ := forall_mem_cons.mp hroots
    have hrun := ih (h.step hbefore hroot) hroots
    rwa [append_assoc] at hrun

/-- Of each group, all tables but one are dropped. -/
theorem settleTables_apply {before : Dropped} (hbefore : ∀ table ∈ tables, before table = false)
    (table : RegionRef) :
  settleTables tables before table =
    if table ∈ tables then
      decide (some table ≠ keptTable (groupOf tables (rootOf tables table)))
    else before table
  := by
  have hstart : Settling tables [] before (uniteTables tables, before) :=
    ⟨rfl, fun table => by simp⟩
  have hrun := (hstart.run hbefore fun _ h => h).dropped table
  rw [settleTables, hrun, nil_append]
  by_cases h : table ∈ tables
  · rw [if_pos ⟨h, rootOf_mem h⟩, if_pos h]
  · rw [if_neg fun hand => h hand.1, if_neg h]

end Groups

/-! ### What is kept -/

variable {region : RegionRef}

section Kept

variable {regions : List RegionRef}

theorem mem_tablesOf :
  region ∈ tablesOf regions ↔ region ∈ regions ∧ region.1.label = "table"
  := by
  rw [tablesOf, mem_filter, beq_iff_eq]

theorem nestsInTables_table (h : table ∈ tablesOf regions) :
  nestsInTables table.1.label = false
  := by
  rw [(mem_tablesOf.mp h).2]
  decide

variable (lines : List OcrLine) (pageWidth pageHeight : ℤ)

theorem dropPagePictures_table (h : table ∈ tablesOf regions) :
  dropPagePictures regions lines pageWidth pageHeight (fun _ => false) table = false
  := by
  rw [← Bool.not_eq_true, dropPagePictures_iff]
  rintro ⟨-, -, hfills⟩
  simp [fillsPage, (mem_tablesOf.mp h).2] at hfills

/-- The tables that are dropped are told before the nested regions are looked at. -/
theorem droppedRegions_table (h : table ∈ tablesOf regions) :
  droppedRegions regions lines pageWidth pageHeight table =
    settleTables (tablesOf regions)
      (dropPagePictures regions lines pageWidth pageHeight fun _ => false) table
  := by
  rw [Bool.eq_iff_iff, droppedRegions, foldl_dropNested_iff fun _ => nestsInTables_table,
    nestsInTables_table h]
  simp

/-- A group keeps the one table that is picked from it. -/
theorem droppedRegions_eq_decide (h : table ∈ tablesOf regions) :
  droppedRegions regions lines pageWidth pageHeight table =
    decide (some table ≠ keptTable
      (groupOf (tablesOf regions) (rootOf (tablesOf regions) table)))
  := by
  rw [droppedRegions_table _ _ _ h,
    settleTables_apply fun _ => dropPagePictures_table lines pageWidth pageHeight, if_pos h]

/-- A region that is no table is dropped as the page itself, or as a part of a kept table. -/
theorem droppedRegions_iff (hmem : region ∈ regions) (hlabel : region.1.label ≠ "table") :
  droppedRegions regions lines pageWidth pageHeight region = true ↔
    (0 < pageArea pageWidth pageHeight ∧ fillsPage lines pageWidth pageHeight region.1 = true) ∨
      nestsInTables region.1.label = true ∧ insideTable (tablesOf regions)
        (droppedRegions regions lines pageWidth pageHeight) region.1 = true
  := by
  have htable : region ∉ tablesOf regions := fun h => hlabel (mem_tablesOf.mp h).2
  rw [insideTable_congr fun _ => droppedRegions_table lines pageWidth pageHeight, droppedRegions,
    foldl_dropNested_iff fun _ => nestsInTables_table,
    settleTables_apply fun _ => dropPagePictures_table lines pageWidth pageHeight, if_neg htable,
    dropPagePictures_iff]
  simp only [hmem, true_and]

end Kept

section Settled

variable (regions : List LayoutRegion) (lines : List OcrLine) (pageWidth pageHeight : ℤ)

variable {regions lines pageWidth pageHeight} in
theorem mem_keptRegions :
  region ∈ keptRegions regions lines pageWidth pageHeight ↔ region ∈ regions.zipIdx ∧
    droppedRegions regions.zipIdx lines pageWidth pageHeight region = false
  := by
  rw [keptRegions, mem_filter, Bool.not_eq_true']

/-- The kept tables of a page. -/
def keptTables : List RegionRef :=
  tablesOf (keptRegions regions lines pageWidth pageHeight)

variable {regions lines pageWidth pageHeight} in
/-- A table is kept when its group picks it. -/
theorem mem_keptTables :
  table ∈ keptTables regions lines pageWidth pageHeight ↔ table ∈ tablesOf regions.zipIdx ∧
    keptTable (groupOf (tablesOf regions.zipIdx) (rootOf (tablesOf regions.zipIdx) table)) =
      some table
  := by
  rw [keptTables, mem_tablesOf, mem_keptRegions, and_right_comm, ← mem_tablesOf]
  apply and_congr_right
  intro h
  rw [droppedRegions_eq_decide _ _ _ h, decide_eq_false_iff_not, ne_eq, not_not]
  exact eq_comm

/-- A group keeps exactly one of its tables. -/
theorem existsUnique_keptTable (h : table ∈ tablesOf regions.zipIdx) :
  ∃! kept, kept ∈ keptTables regions lines pageWidth pageHeight ∧
    Chained (tablesOf regions.zipIdx) table kept
  := by
  obtain ⟨kept, hkept⟩ := exists_keptTable (mem_groupOf.mpr ⟨h, rfl⟩)
  obtain ⟨hmem, hroot⟩ := mem_groupOf.mp (keptTable_mem hkept)
  refine ⟨kept, ⟨mem_keptTables.mpr ⟨hmem, by rw [hroot, hkept]⟩,
    (rep_uniteTables _ _ _).mp hroot.symm⟩, ?_⟩
  rintro other ⟨hother, hchain⟩
  have hsame : rootOf _ table = rootOf _ other := (rep_uniteTables _ _ _).mpr hchain
  have hpick := (mem_keptTables.mp hother).2
  rw [← hsame, hkept] at hpick
  exact (Option.some.inj hpick).symm

/-- No two kept tables are one detection. -/
theorem sameDetection_keptTables (htable : table ∈ keptTables regions lines pageWidth pageHeight)
    (hother : other ∈ keptTables regions lines pageWidth pageHeight) (hne : table ≠ other) :
  sameDetection table.1 other.1 = false
  := by
  rw [← Bool.not_eq_true]
  intro hsame
  have hmem := (mem_keptTables.mp htable).1
  have hone : OneDetection (tablesOf regions.zipIdx) table other :=
    ⟨hmem, (mem_keptTables.mp hother).1, hsame⟩
  exact hne ((existsUnique_keptTable regions lines pageWidth pageHeight hmem).unique
    ⟨htable, .refl _⟩ ⟨hother, .rel _ _ hone⟩)

/-- Whether a region lies past the threshold in one of some tables. -/
def NestedIn (tables : List RegionRef) (region : LayoutRegion) : Prop :=
  nestsInTables region.label = true ∧
    ∃ table ∈ tables, nestedShare < insideShare region table.1

/-- A picture over most of a page with a size, with a line in it. -/
def FillsPage (region : LayoutRegion) : Prop :=
  0 < pageArea pageWidth pageHeight ∧ fillsPage lines pageWidth pageHeight region = true

variable {regions lines pageWidth pageHeight} in
theorem insideTable_iff {region : LayoutRegion} :
  insideTable (tablesOf regions.zipIdx)
      (droppedRegions regions.zipIdx lines pageWidth pageHeight) region = true ↔
    ∃ table ∈ keptTables regions lines pageWidth pageHeight,
      nestedShare < insideShare region table.1
  := by
  simp only [insideTable, any_eq_true, Bool.and_eq_true, Bool.not_eq_true',
    decide_eq_true_iff, keptTables, mem_tablesOf, mem_keptRegions]
  apply exists_congr
  intro table
  tauto

/-- A region that is no table is kept unless it is the page itself or nested in a kept table. -/
theorem mem_keptRegions_iff (hmem : region ∈ regions.zipIdx) (hlabel : region.1.label ≠ "table") :
  region ∈ keptRegions regions lines pageWidth pageHeight ↔
    ¬ FillsPage lines pageWidth pageHeight region.1 ∧
      ¬ NestedIn (keptTables regions lines pageWidth pageHeight) region.1
  := by
  rw [mem_keptRegions, ← Bool.not_eq_true, droppedRegions_iff _ _ _ hmem hlabel, insideTable_iff,
    not_or]
  exact and_iff_right hmem

theorem keptRegions_sublist :
  (keptRegions regions lines pageWidth pageHeight).Sublist regions.zipIdx
  := filter_sublist

/-- Regions that nothing is to be dropped from. -/
structure Apart : Prop where
  fills : ∀ region ∈ regions, ¬ FillsPage lines pageWidth pageHeight region
  tables : regions.Pairwise fun region other =>
    region.label = "table" → other.label = "table" → sameDetection region other = false
  nested : ∀ region ∈ regions, nestsInTables region.label = true →
    ∀ table ∈ regions, table.label = "table" → insideShare region table ≤ nestedShare

theorem not_fillsPage_table {region : LayoutRegion} (h : region.label = "table") :
  ¬ FillsPage lines pageWidth pageHeight region
  := by
  rintro ⟨-, hfills⟩
  simp [fillsPage, h] at hfills

theorem not_nestedIn_table {region : LayoutRegion} (h : region.label = "table")
    (tables : List RegionRef) :
  ¬ NestedIn tables region
  := by
  rintro ⟨hnests, -⟩
  rw [h] at hnests
  exact absurd hnests (by decide)

/-- What is kept is no page and lies in no kept table. -/
theorem not_fills_nested_of_mem (h : region ∈ keptRegions regions lines pageWidth pageHeight) :
  ¬ FillsPage lines pageWidth pageHeight region.1 ∧
    ¬ NestedIn (keptTables regions lines pageWidth pageHeight) region.1
  := by
  by_cases hlabel : region.1.label = "table"
  · exact ⟨not_fillsPage_table _ _ _ hlabel, not_nestedIn_table hlabel _⟩
  · exact (mem_keptRegions_iff _ _ _ _ (mem_keptRegions.mp h).1 hlabel).mp h

theorem apart_resolveRegionOverlaps :
  Apart (resolveRegionOverlaps regions lines pageWidth pageHeight) lines pageWidth pageHeight
  where
  fills := by
    intro region hmem
    obtain ⟨kept, hkept, rfl⟩ := List.mem_map.mp hmem
    exact (not_fills_nested_of_mem _ _ _ _ hkept).1
  tables := by
    rw [resolveRegionOverlaps, List.pairwise_map]
    have hnodup := (Lists.nodup_zipIdx regions).sublist
      (keptRegions_sublist regions lines pageWidth pageHeight)
    apply hnodup.pairwise_of_forall_ne
    intro region hregion other hother hne hlabel hlabel'
    exact sameDetection_keptTables _ _ _ _ (mem_tablesOf.mpr ⟨hregion, hlabel⟩)
      (mem_tablesOf.mpr ⟨hother, hlabel'⟩) hne
  nested := by
    intro region hmem hnests table htable hlabel
    obtain ⟨kept, hkept, rfl⟩ := List.mem_map.mp hmem
    obtain ⟨other, hother, rfl⟩ := List.mem_map.mp htable
    by_contra hinside
    exact (not_fills_nested_of_mem _ _ _ _ hkept).2
      ⟨hnests, other, mem_tablesOf.mpr ⟨hother, hlabel⟩, not_le.mp hinside⟩

variable {regions lines pageWidth pageHeight} in
/-- Different tables of such a list are no one detection. -/
theorem Apart.sameDetection_eq_false (h : Apart regions lines pageWidth pageHeight)
    (htable : table ∈ tablesOf regions.zipIdx) (hother : other ∈ tablesOf regions.zipIdx)
    (hne : table ≠ other) :
  sameDetection table.1 other.1 = false
  := by
  obtain ⟨hmem, hlabel⟩ := mem_tablesOf.mp htable
  obtain ⟨hmem', hlabel'⟩ := mem_tablesOf.mp hother
  obtain ⟨region, index⟩ := table
  obtain ⟨region', index'⟩ := other
  obtain ⟨hindex, hregion⟩ := List.getElem?_eq_some_iff.mp (List.mem_zipIdx_iff_getElem?.mp hmem)
  obtain ⟨hindex', hregion'⟩ := List.getElem?_eq_some_iff.mp (List.mem_zipIdx_iff_getElem?.mp hmem')
  dsimp only at hindex hregion hindex' hregion' hlabel hlabel' ⊢
  subst hregion hregion'
  have hpair := List.pairwise_iff_getElem.mp h.tables
  rcases Nat.lt_trichotomy index index' with hlt | rfl | hlt
  · exact hpair _ _ hindex hindex' hlt hlabel hlabel'
  · exact absurd rfl hne
  · rw [sameDetection_comm]
    exact hpair _ _ hindex' hindex hlt hlabel' hlabel

variable {regions lines pageWidth pageHeight} in
/-- A chain goes nowhere. -/
theorem Apart.chained_eq (h : Apart regions lines pageWidth pageHeight)
    (hchain : Chained (tablesOf regions.zipIdx) table other) :
  table = other
  := by
  induction hchain with
  | rel table other hone =>
    by_contra hne
    obtain ⟨htable, hother, hsame⟩ := hone
    rw [h.sameDetection_eq_false htable hother hne] at hsame
    cases hsame
  | refl _ => rfl
  | symm _ _ _ ih => exact ih.symm
  | trans _ _ _ _ _ ih ih' => exact ih.trans ih'

variable {regions lines pageWidth pageHeight} in
theorem Apart.mem_keptRegions (h : Apart regions lines pageWidth pageHeight)
    (hmem : region ∈ regions.zipIdx) :
  region ∈ keptRegions regions lines pageWidth pageHeight
  := by
  have hregion := fst_mem_of_mem_zipIdx hmem
  by_cases hlabel : region.1.label = "table"
  · obtain ⟨kept, ⟨hkept, hchain⟩, -⟩ := existsUnique_keptTable regions lines pageWidth pageHeight
      (mem_tablesOf.mpr ⟨hmem, hlabel⟩)
    rw [h.chained_eq hchain]
    exact (mem_tablesOf.mp hkept).1
  · refine (mem_keptRegions_iff _ _ _ _ hmem hlabel).mpr ⟨h.fills _ hregion, ?_⟩
    rintro ⟨hnests, table, htable, hinside⟩
    obtain ⟨htable, hlabel'⟩ := mem_tablesOf.mp htable
    have hzip := (keptRegions_sublist regions lines pageWidth pageHeight).subset htable
    exact not_lt_of_ge
      (h.nested _ hregion hnests _ (fst_mem_of_mem_zipIdx hzip) hlabel') hinside

variable {regions lines pageWidth pageHeight} in
theorem Apart.resolve_eq (h : Apart regions lines pageWidth pageHeight) :
  resolveRegionOverlaps regions lines pageWidth pageHeight = regions
  := by
  have hall : keptRegions regions lines pageWidth pageHeight = regions.zipIdx :=
    filter_eq_self.mpr fun _ hmem => (mem_filter.mp (h.mem_keptRegions hmem)).2
  rw [resolveRegionOverlaps, hall, zipIdx_map_fst]

end Settled

end GRParse.Assembly
