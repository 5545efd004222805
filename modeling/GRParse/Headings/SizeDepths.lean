import GRParse.Headings.Levels
import Mathlib.Algebra.Order.Field.Basic
import Mathlib.Tactic.Linarith

/-!
# Depths from sizes

A heading without a number is to be taken for taller than all clusters, for smaller than all, or to the
nearest.  The code finds out the first two from one cluster each, so what it says is right if a heading
visibly taller than the cluster of the least depth is taller than all, and one visibly smaller than the
cluster of the greatest depth smaller than all, or if the clamped depth is that of a nearest cluster
all the same.
-/

namespace GRParse.Headings

open Containers List

/-! ### What sizes decide -/

section

variable (options : HeadingOptions) (medians : List (ℕ × ℚ)) (height : ℚ)

def TallerThanAll : Prop :=
  ∀ cluster ∈ medians, cluster.2 < height * options.deeperBelow

def SmallerThanAll : Prop :=
  ∀ cluster ∈ medians, height < cluster.2 * options.deeperBelow

/-- A cluster whose median is nearest. -/
def Nearest (cluster : ℕ × ℚ) : Prop :=
  cluster ∈ medians ∧ ∀ other ∈ medians, |cluster.2 - height| ≤ |other.2 - height|

/-- The cluster of the greatest depth. -/
def Deepest (cluster : ℕ × ℚ) : Prop :=
  cluster ∈ medians ∧ ∀ other ∈ medians, other.1 ≤ cluster.1

/-- The level a height is given by the medians of the clusters. -/
structure SizedLevel (level : ℤ) : Prop where
  taller : TallerThanAll options medians height → level = clampDepth options 1
  smaller : SmallerThanAll options medians height →
    ∃ cluster, Deepest medians cluster ∧ level = clampDepth options (cluster.1 + 1)
  between : ¬ TallerThanAll options medians height → ¬ SmallerThanAll options medians height →
    ∃ cluster, Nearest medians height cluster ∧ level = clampDepth options cluster.1

/-- What the first and the last median say of a height holds of all, or the nearest cluster has the
same clamped depth. -/
structure EndsDecide : Prop where
  first : (medians.headD (0, 0)).2 < height * options.deeperBelow →
    TallerThanAll options medians height ∨
      ∃ cluster, Nearest medians height cluster ∧ clampDepth options cluster.1 = clampDepth options 1
  last : ¬ (medians.headD (0, 0)).2 < height * options.deeperBelow →
    height < (medians.getLastD (0, 0)).2 * options.deeperBelow →
      SmallerThanAll options medians height ∨
        ∃ cluster, Nearest medians height cluster ∧
          clampDepth options cluster.1 = clampDepth options ((medians.getLastD (0, 0)).1 + 1)

end

section

variable {options : HeadingOptions} {medians : List (ℕ × ℚ)} {height : ℚ}

/-- A search that found a nearest cluster goes on to one nearest among more. -/
theorem foldl_nearerCluster {seen clusters : List (ℕ × ℚ)} {cluster : ℕ × ℚ}
    (h : Nearest seen height cluster) :
  ∃ found, Nearest (seen ++ clusters) height found ∧
    clusters.foldl (nearerCluster height) (cluster.1, some |cluster.2 - height|) =
      (found.1, some |found.2 - height|)
  := by
  induction clusters generalizing seen cluster with
  | nil =>
    use cluster
    rw [append_nil]
    exact ⟨h, rfl⟩
  | cons next clusters ih =>
    rw [append_cons, foldl_cons, nearerCluster]
    by_cases hnearer : |next.2 - height| < |cluster.2 - height|
    · have hnext : Nearest (seen ++ [next]) height next := by
        refine ⟨mem_concat_self, ?_⟩
        intro other hother
        rcases mem_append.mp hother with hother | hother
        · exact hnearer.le.trans (h.2 other hother)
        · rw [mem_singleton.mp hother]
      simpa [hnearer] using ih hnext
    · have hkept : Nearest (seen ++ [next]) height cluster := by
        refine ⟨mem_append_left _ h.1, ?_⟩
        intro other hother
        rcases mem_append.mp hother with hother | hother
        · exact h.2 other hother
        · rw [mem_singleton.mp hother]
          exact not_lt.mp hnearer
      simpa [hnearer] using ih hkept

/-- The search finds a nearest cluster. -/
theorem exists_nearest (h : medians ≠ []) (depth : ℕ) :
  ∃ found, Nearest medians height found ∧
    (medians.foldl (nearerCluster height) (depth, none)).1 = found.1
  := by
  obtain ⟨first, rest, rfl⟩ := exists_cons_of_ne_nil h
  have hfirst : Nearest [first] height first := by
    refine ⟨mem_singleton_self first, ?_⟩
    intro other hother
    rw [mem_singleton.mp hother]
  obtain ⟨found, hfound, hfold⟩ := foldl_nearerCluster hfirst
  use found, hfound
  have hstep : nearerCluster height (depth, none) first = (first.1, some |first.2 - height|) := by
    simp [nearerCluster]
  rw [foldl_cons, hstep, hfold]

theorem headD_mem (h : medians ≠ []) :
  medians.headD (0, 0) ∈ medians
  := by
  obtain ⟨first, rest, rfl⟩ := exists_cons_of_ne_nil h
  exact mem_cons_self

theorem getLastD_mem (h : medians ≠ []) :
  medians.getLastD (0, 0) ∈ medians
  := by
  rw [getLastD_eq_getLast?, getLast?_eq_some_getLast h]
  exact getLast_mem h

/-- The last of clusters in the order of their depths is the deepest. -/
theorem deepest_getLastD (h : medians ≠ []) (hsorted : (medians.map Prod.fst).Pairwise (· < ·)) :
  Deepest medians (medians.getLastD (0, 0))
  := by
  refine ⟨getLastD_mem h, ?_⟩
  rw [getLastD_eq_getLast?, getLast?_eq_some_getLast h, Option.getD_some]
  obtain ⟨front, last, rfl⟩ : ∃ front last, medians = front ++ [last] :=
    ⟨_, _, (dropLast_append_getLast h).symm⟩
  rw [getLast_concat]
  intro other hother
  rcases mem_append.mp hother with hother | hother
  · rw [map_append, pairwise_append] at hsorted
    exact (hsorted.2.2 other.1 (mem_map_of_mem hother) last.1 (by simp)).le
  · rw [mem_singleton.mp hother]

/-- A height is not both visibly taller and visibly smaller than a median. -/
theorem not_smaller_of_taller {median deeper : ℚ} (hpos : 0 < deeper) (hle : deeper ≤ 1)
    (hheight : 0 < height) (htaller : median < height * deeper) :
  ¬ height < median * deeper
  := by
  intro hsmaller
  have hmedian : 0 < median := by
    by_contra hnot
    have hnonpos : median * deeper ≤ 0 := mul_nonpos_of_nonpos_of_nonneg (not_lt.mp hnot) hpos.le
    linarith
  have h₁ : median * deeper ≤ median := mul_le_of_le_one_right hmedian.le hle
  have h₂ : height * deeper ≤ height := mul_le_of_le_one_right hheight.le hle
  linarith

/-- The code's depth is the right one exactly if the ends decide. -/
theorem sizedLevel_iff (hmedians : medians ≠ [])
    (hsorted : (medians.map Prod.fst).Pairwise (· < ·)) (hpos : 0 < options.deeperBelow)
    (hle : options.deeperBelow ≤ 1) (hheight : 0 < height) :
  SizedLevel options medians height
      (clampDepth options (depthByNearestCluster height medians options.deeperBelow)) ↔
    EndsDecide options medians height
  := by
  have htall : height > (medians.headD (0, 0)).2 / options.deeperBelow ↔
      (medians.headD (0, 0)).2 < height * options.deeperBelow := div_lt_iff₀ hpos
  have hhead := headD_mem hmedians
  rw [depthByNearestCluster, if_neg hheight.not_ge]
  by_cases hfirst : (medians.headD (0, 0)).2 < height * options.deeperBelow
  · have hnot : ¬ SmallerThanAll options medians height :=
      fun hall => not_smaller_of_taller hpos hle hheight hfirst (hall _ hhead)
    rw [if_pos (htall.mpr hfirst)]
    constructor
    · rintro ⟨-, -, hbetween⟩
      refine ⟨fun _ => ?_, fun h => absurd hfirst h⟩
      by_cases hall : TallerThanAll options medians height
      · exact Or.inl hall
      · obtain ⟨cluster, hnearest, hlevel⟩ := hbetween hall hnot
        exact Or.inr ⟨cluster, hnearest, hlevel.symm⟩
    · rintro ⟨hends, -⟩
      refine ⟨fun _ => rfl, fun hall => absurd hall hnot, fun htaller _ => ?_⟩
      obtain ⟨cluster, hnearest, hlevel⟩ := (hends hfirst).resolve_left htaller
      exact ⟨cluster, hnearest, hlevel.symm⟩
  · have hnot : ¬ TallerThanAll options medians height := fun hall => hfirst (hall _ hhead)
    rw [if_neg (fun h => hfirst (htall.mp h))]
    by_cases hlast : height < (medians.getLastD (0, 0)).2 * options.deeperBelow
    · rw [if_pos hlast]
      constructor
      · rintro ⟨-, -, hbetween⟩
        refine ⟨fun h => absurd h hfirst, fun _ _ => ?_⟩
        by_cases hall : SmallerThanAll options medians height
        · exact Or.inl hall
        · obtain ⟨cluster, hnearest, hlevel⟩ := hbetween hnot hall
          exact Or.inr ⟨cluster, hnearest, hlevel.symm⟩
      · rintro ⟨-, hends⟩
        refine ⟨fun hall => absurd hall hnot,
          fun _ => ⟨_, deepest_getLastD hmedians hsorted, rfl⟩, fun _ hsmaller => ?_⟩
        obtain ⟨cluster, hnearest, hlevel⟩ := (hends hfirst hlast).resolve_left hsmaller
        exact ⟨cluster, hnearest, hlevel.symm⟩
    · have hnot' : ¬ SmallerThanAll options medians height :=
        fun hall => hlast (hall _ (getLastD_mem hmedians))
      rw [if_neg hlast]
      constructor
      · intro _
        exact ⟨fun h => absurd h hfirst, fun _ h => absurd h hlast⟩
      · intro _
        refine ⟨fun hall => absurd hall hnot, fun hall => absurd hall hnot', fun _ _ => ?_⟩
        obtain ⟨cluster, hnearest, hdepth⟩ :=
          exists_nearest hmedians (medians.headD (0, 0)).1
        exact ⟨cluster, hnearest, by rw [hdepth]⟩

end

/-! ### What the loop reads -/

/-- A heading outside the title without a number. -/
def unstated (options : HeadingOptions) (title : List String) (header : HeaderHeight) : Bool :=
  !title.contains header.selfRef && (statedDepth options header).isNone

variable (options : HeadingOptions)

theorem readHeadings_unnumbered (title : List String) (headers : List HeaderHeight) :
  (readHeadings options title headers).unnumbered = headers.filter (unstated options title)
  := by
  induction headers using reverseRecOn with
  | nil => rfl
  | append_singleton headers header ih =>
    rw [readHeadings, foldl_append, ← readHeadings, foldl_cons, foldl_nil,
      filter_append, ← ih, filter_singleton, unstated, Reading.visit]
    cases htitle : title.contains header.selfRef with
    | true => simp
    | false => cases hdepth : statedDepth options header <;> simp

/-- There is a cluster for each depth that a heading of some height states. -/
theorem mem_keys_readHeadings (title : List String) (headers : List HeaderHeight) (depth : ℕ) :
  depth ∈ (readHeadings options title headers).clusterHeights.keys ↔
    ∃ header ∈ headers, title.contains header.selfRef = false ∧
      statedDepth options header = some depth ∧ 0 < header.height
  := by
  induction headers using reverseRecOn with
  | nil => simp [readHeadings, SortedMap.keys]
  | append_singleton headers header ih =>
    rw [readHeadings, foldl_append, ← readHeadings, foldl_cons, foldl_nil,
      Reading.visit]
    simp only [mem_append, mem_singleton, or_and_right, exists_or, exists_eq_left, ← ih]
    cases htitle : title.contains header.selfRef with
    | true => simp
    | false =>
      cases hdepth : statedDepth options header with
      | none => simp
      | some stated =>
        by_cases hheight : 0 < header.height
        · simp [hheight, or_comm, eq_comm]
        · simp [hheight]

/-- Some heading outside the title has a number and a height. -/
def SomeNumbered (options : HeadingOptions) (title : List String) (headers : List HeaderHeight) :
    Prop :=
  ∃ header ∈ headers, title.contains header.selfRef = false ∧
    (statedDepth options header).isSome ∧ 0 < header.height

theorem entries_ne_nil_iff (title : List String) (headers : List HeaderHeight) :
  (readHeadings options title headers).clusterHeights.entries ≠ [] ↔
    SomeNumbered options title headers
  := by
  constructor
  · intro hne
    obtain ⟨entry, hentry⟩ := exists_mem_of_ne_nil _ hne
    obtain ⟨header, hmem, htitle, hstated, hheight⟩ :=
      (mem_keys_readHeadings options title headers entry.1).mp (mem_map_of_mem hentry)
    exact ⟨header, hmem, htitle, by simp [hstated], hheight⟩
  · rintro ⟨header, hmem, htitle, hsome, hheight⟩ hnil
    obtain ⟨depth, hstated⟩ := Option.isSome_iff_exists.mp hsome
    have hkey := (mem_keys_readHeadings options title headers depth).mpr
      ⟨header, hmem, htitle, hstated, hheight⟩
    rw [SortedMap.keys, hnil] at hkey
    cases hkey

theorem medians_sorted (reading : Reading) :
  (reading.medians.map Prod.fst).Pairwise (· < ·)
  := by
  rw [Reading.medians, map_map]
  exact reading.clusterHeights.sorted

/-! ### Levels of the headings -/

@[simp]
theorem normalized_selfRefs (input : List HeaderHeight) :
  (normalized input).map HeaderHeight.selfRef = input.map HeaderHeight.selfRef
  := by
  rw [normalized]
  split
  · rw [map_map]
    rfl
  · rfl

/-- Of entries under the distinct names of headings, a heading's own is found. -/
theorem lookup_insertAll_headers {α : Type} {headers : List HeaderHeight}
    (hrefs : (headers.map HeaderHeight.selfRef).Nodup) (value : HeaderHeight → α)
    {header : HeaderHeight} (hmem : header ∈ headers) (map : Map String α) :
  (Map.insertAll (headers.map (fun header => (header.selfRef, value header))) map).lookup
      header.selfRef =
    some (value header)
  := by
  have hentry : (header.selfRef, value header) ∈
      headers.map (fun header => (header.selfRef, value header)) :=
    mem_map.mpr ⟨header, hmem, rfl⟩
  apply Map.lookup_insertAll_of_mem hentry
  intro entry hentry hkey
  obtain ⟨other, hother, rfl⟩ := mem_map.mp hentry
  rw [inj_on_of_nodup_map hrefs hother hmem hkey]

/-- The title and the reading of some headings. -/
def titleOf (options : HeadingOptions) (input : List HeaderHeight) : List String :=
  titleLines (normalized input) options

def readingOf (options : HeadingOptions) (input : List HeaderHeight) : Reading :=
  readHeadings options (titleOf options input) (normalized input)

/-- Every heading has one level, and no other name has one. -/
structure LevelsEach (options : HeadingOptions) (input : List HeaderHeight) : Prop where
  named : ∀ ref, ref ∈ inferHeadingLevels input options ↔ ref ∈ input.map HeaderHeight.selfRef
  bounded : ∀ ref level, (inferHeadingLevels input options).lookup ref = some level →
    1 ≤ level ∧ level ≤ levelCeiling options

/-- Sizes decide the levels of the headings without a number, if some numbered heading has a height. -/
def SizesDecide (options : HeadingOptions) (input : List HeaderHeight) : Prop :=
  options.useStyle = true → SomeNumbered options (titleOf options input) (normalized input) →
    ∀ header ∈ normalized input, unstated options (titleOf options input) header = true →
      0 < header.height →
        ∃ level, (inferHeadingLevels input options).lookup header.selfRef = some level ∧
          SizedLevel options (readingOf options input).medians header.height level

/-- The ends decide for each of these headings. -/
def EndsDecideAll (options : HeadingOptions) (input : List HeaderHeight) : Prop :=
  options.useStyle = true → SomeNumbered options (titleOf options input) (normalized input) →
    ∀ header ∈ normalized input, unstated options (titleOf options input) header = true →
      0 < header.height → EndsDecide options (readingOf options input).medians header.height

variable {input : List HeaderHeight}

/-- The level of a heading. -/
theorem lookup_inferHeadingLevels {options : HeadingOptions}
    (hrefs : (input.map HeaderHeight.selfRef).Nodup) {header : HeaderHeight}
    (hmem : header ∈ normalized input) :
  (inferHeadingLevels input options).lookup header.selfRef =
    some (if (titleOf options input).contains header.selfRef then 1
      else clampDepth options
        ((((readingOf options input).allDepths options).lookup header.selfRef).getD 0))
  := by
  rw [← normalized_selfRefs] at hrefs
  exact lookup_insertAll_headers hrefs _ hmem ∅

theorem one_le_levelCeiling :
  1 ≤ levelCeiling options
  := le_max_left _ _

theorem levelsEach (hrefs : (input.map HeaderHeight.selfRef).Nodup) :
  LevelsEach options input
  := by
  have hceiling := one_le_levelCeiling options
  have hfound (ref : String) (h : ref ∈ input.map HeaderHeight.selfRef) :
      ∃ header ∈ normalized input, header.selfRef = ref := by
    rw [← normalized_selfRefs] at h
    exact mem_map.mp h
  have hnone (ref : String) (h : ref ∉ input.map HeaderHeight.selfRef) :
      (inferHeadingLevels input options).lookup ref = none := by
    rw [← normalized_selfRefs] at h
    rw [inferHeadingLevels, Map.lookup_insertAll_of_notMem]
    · exact Finmap.lookup_empty _
    · rintro entry hentry rfl
      obtain ⟨header, hheader, rfl⟩ := mem_map.mp hentry
      exact h (mem_map_of_mem hheader)
  constructor
  case named =>
    intro ref
    rw [← Finmap.lookup_isSome]
    constructor
    · intro hsome
      by_contra hnot
      rw [hnone ref hnot] at hsome
      cases hsome
    · intro hmem
      obtain ⟨header, hheader, rfl⟩ := hfound ref hmem
      rw [lookup_inferHeadingLevels hrefs hheader]
      rfl
  case bounded =>
    intro ref level hlevel
    have hmem : ref ∈ input.map HeaderHeight.selfRef := by
      by_contra hnot
      rw [hnone ref hnot] at hlevel
      cases hlevel
    obtain ⟨header, hheader, rfl⟩ := hfound ref hmem
    rw [lookup_inferHeadingLevels hrefs hheader] at hlevel
    obtain rfl := Option.some.inj hlevel
    split
    · exact ⟨le_rfl, hceiling⟩
    · rw [clampDepth]
      omega

/-- The level of a heading without a number, when clusters decide. -/
theorem lookup_of_unstated {options : HeadingOptions}
    (hrefs : (input.map HeaderHeight.selfRef).Nodup) (hstyle : options.useStyle = true)
    (hnumbered : SomeNumbered options (titleOf options input) (normalized input))
    {header : HeaderHeight} (hmem : header ∈ normalized input)
    (hunstated : unstated options (titleOf options input) header = true) :
  (inferHeadingLevels input options).lookup header.selfRef =
    some (clampDepth options
      (depthByNearestCluster header.height (readingOf options input).medians options.deeperBelow))
  := by
  have hentries := (entries_ne_nil_iff options (titleOf options input) (normalized input)).mpr
    hnumbered
  have hempty : (readingOf options input).clusterHeights.entries.isEmpty = false := by
    rw [readingOf]
    simpa using hentries
  have htitle : (titleOf options input).contains header.selfRef = false := by
    rw [unstated] at hunstated
    simpa using (Bool.and_eq_true_iff.mp hunstated).1
  have hunnumbered : (readingOf options input).unnumbered =
      (normalized input).filter (unstated options (titleOf options input)) :=
    readHeadings_unnumbered options (titleOf options input) (normalized input)
  have hdepth : ((readingOf options input).allDepths options).lookup header.selfRef =
      some (depthByNearestCluster header.height (readingOf options input).medians
        options.deeperBelow) := by
    rw [Reading.allDepths, hstyle, hempty, hunnumbered]
    apply lookup_insertAll_headers _ _ (mem_filter.mpr ⟨hmem, hunstated⟩)
    rw [← normalized_selfRefs] at hrefs
    exact hrefs.sublist (filter_sublist.map _)
  rw [lookup_inferHeadingLevels hrefs hmem, htitle, hdepth]
  rfl

/-- Every heading has one level, and sizes decide the levels of those without a number exactly if what
the ends say of them holds. -/
theorem inferHeadingLevels_right_iff (options : HeadingOptions) (input : List HeaderHeight)
    (hrefs : (input.map HeaderHeight.selfRef).Nodup)
    (hlow : 0 ≤ options.styleSizeTolerance) (hhigh : options.styleSizeTolerance < 1) :
  (LevelsEach options input ∧ SizesDecide options input) ↔ EndsDecideAll options input
  := by
  have hpos : 0 < options.deeperBelow := by
    rw [HeadingOptions.deeperBelow]
    linarith
  have hle : options.deeperBelow ≤ 1 := by
    rw [HeadingOptions.deeperBelow]
    linarith
  have hlevel (hstyle : options.useStyle = true)
      (hnumbered : SomeNumbered options (titleOf options input) (normalized input))
      (header : HeaderHeight) (hmem : header ∈ normalized input)
      (hunstated : unstated options (titleOf options input) header = true)
      (hheight : 0 < header.height) :
      (∃ level, (inferHeadingLevels input options).lookup header.selfRef = some level ∧
        SizedLevel options (readingOf options input).medians header.height level) ↔
      EndsDecide options (readingOf options input).medians header.height := by
    have hmedians : (readingOf options input).medians ≠ [] := by
      rw [Reading.medians, ne_eq, List.map_eq_nil_iff]
      exact (entries_ne_nil_iff _ _ _).mpr hnumbered
    rw [lookup_of_unstated hrefs hstyle hnumbered hmem hunstated,
      ← sizedLevel_iff hmedians (medians_sorted _) hpos hle hheight]
    simp
  constructor
  · rintro ⟨-, hsizes⟩ hstyle hnumbered header hmem hunstated hheight
    exact (hlevel hstyle hnumbered header hmem hunstated hheight).mp
      (hsizes hstyle hnumbered header hmem hunstated hheight)
  · intro hends
    refine ⟨levelsEach options hrefs, ?_⟩
    intro hstyle hnumbered header hmem hunstated hheight
    exact (hlevel hstyle hnumbered header hmem hunstated hheight).mpr
      (hends hstyle hnumbered header hmem hunstated hheight)

/-- A chapter, a section set larger than it, and a heading without a number set nearly as large as the
section. -/
def chapterSetSmall : List HeaderHeight :=
  [{ selfRef := "#/texts/0", text := [0x31, 0x20, 0x41], height := 10 },
    { selfRef := "#/texts/1", text := [0x31, 0x2e, 0x31, 0x20, 0x42], height := 20 },
    { selfRef := "#/texts/2", text := [0x43], height := 18 }]

theorem inferHeadingLevels_right_iff_chapter :
  (LevelsEach {} chapterSetSmall ∧ SizesDecide {} chapterSetSmall) ↔ EndsDecideAll {} chapterSetSmall
  := inferHeadingLevels_right_iff {} chapterSetSmall (by decide) (by norm_num) (by norm_num)

/-- The last heading is visibly taller than the chapter only, and nearest to the section; it gets the
level of the chapter. -/
theorem inferHeadingLevels_chapterSetSmall :
  ¬ (LevelsEach {} chapterSetSmall ∧ SizesDecide {} chapterSetSmall)
  := by
  rintro ⟨-, hsizes⟩
  have hmedians : (readingOf {} chapterSetSmall).medians = [(1, 10), (2, 20)] := rfl
  have hdeeper : ({} : HeadingOptions).deeperBelow = 17 / 20 := by
    norm_num [HeadingOptions.deeperBelow]
  have hnumbered : SomeNumbered {} (titleOf {} chapterSetSmall) (normalized chapterSetSmall) :=
    ⟨_, List.mem_cons_self, rfl, rfl, by decide⟩
  have hlast : { selfRef := "#/texts/2", text := [0x43], height := 18 } ∈
      normalized chapterSetSmall :=
    List.mem_cons_of_mem _ (List.mem_cons_of_mem _ List.mem_cons_self)
  obtain ⟨level, hlevel, hsized⟩ := hsizes rfl hnumbered _ hlast rfl (by norm_num)
  rw [lookup_of_unstated (by decide) rfl hnumbered hlast rfl] at hlevel
  rw [hmedians] at hlevel hsized
  have hdepth : depthByNearestCluster 18 [(1, 10), (2, 20)] ({} : HeadingOptions).deeperBelow = 1 := by
    rw [hdeeper]
    norm_num [depthByNearestCluster]
  have htaller : ¬ TallerThanAll {} [(1, 10), (2, 20)] 18 := by
    intro hall
    have hsection := hall (2, 20) (by simp)
    rw [hdeeper] at hsection
    norm_num at hsection
  have hsmaller : ¬ SmallerThanAll {} [(1, 10), (2, 20)] 18 := by
    intro hall
    have hchapter := hall (1, 10) (by simp)
    rw [hdeeper] at hchapter
    norm_num at hchapter
  obtain ⟨cluster, ⟨hmem, hnearest⟩, hcluster⟩ := hsized.between htaller hsmaller
  have hnear := hnearest (2, 20) (by simp)
  rcases List.mem_pair.mp hmem with rfl | rfl
  · norm_num at hnear
  · rw [← Option.some.inj hlevel, hdepth] at hcluster
    exact absurd hcluster (by decide)

end GRParse.Headings
