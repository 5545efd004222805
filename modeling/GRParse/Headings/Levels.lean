import GRParse.Headings.Numbering
import GRParse.Lib.Map
import GRParse.Lib.SortOn
import GRParse.Lib.SortedMap

/-!
# Levels of headings

The headings of a document are read for the depth their numbers state.  The heights of the headings of
each depth have a median, and a heading without a number takes the depth of the median nearest to its
height, unless it is taller than the first median or smaller than the last.  Only the medians of the
least and of the greatest depth are asked for that.

Heights are fractions.
-/

namespace GRParse.Headings

open Containers Sorting

/-! ### Heights -/

/-- The heights headings compare by: font sizes when every heading has one. -/
def normalized (headers : List HeaderHeight) : List HeaderHeight :=
  if !headers.isEmpty && headers.all (fun header => header.fontSize > 0) then
    headers.map (fun header => { header with height := header.fontSize })
  else headers

def medianOf (values : List ℚ) : ℚ :=
  (sortOn id values).getD (values.length / 2) 0

/-- Bold ranks above regular, upright above italic, capitals above mixed case. -/
def styleRank (header : HeaderHeight) : ℕ :=
  let allCaps := header.text.any isLetter && !header.text.any isLower
  (if header.bold then 4 else 0) + (if header.italic then 0 else 2) + (if allCaps then 1 else 0)

/-! ### The title -/

def kTitleLineHeightShare : ℚ := 7 / 10

/-- The first page that is named. -/
def firstPage (headers : List HeaderHeight) : ℤ :=
  headers.foldl
    (fun first header =>
      if header.page > 0 && (first = 0 || header.page < first) then header.page else first)
    0

def numberedByText (options : HeadingOptions) (header : HeaderHeight) : Bool :=
  if options.numberingSchemes.isEmpty then (headingNumberingDepth header.text).isSome
  else (headingSchemeDepth header.text options.numberingSchemes).isSome

/-- A heading does not go on with the block whose last line is given. -/
def breaksBlock (previous header : HeaderHeight) : Bool :=
  let gap := header.top - previous.bottom
  let smaller := min previous.height header.height
  let larger := max previous.height header.height
  gap > larger || smaller < kTitleLineHeightShare * larger

/-- The headings that open a page, as long as they are lines of one block. -/
def titleBlock (options : HeadingOptions) : Option HeaderHeight → List HeaderHeight →
    List HeaderHeight
  | _, [] => []
  | previous, header :: rest =>
    if (options.useNumbering && numberedByText options header) || header.height ≤ 0 ||
        previous.any (breaksBlock · header) then []
    else header :: titleBlock options (some header) rest

def titleLines (input : List HeaderHeight) (options : HeadingOptions) : List String :=
  let headers := normalized input
  if !options.useStyle || firstPage headers = 0 then []
  else
    let opening := sortOn HeaderHeight.top
      (headers.filter (fun header => header.page = firstPage headers))
    let block := titleBlock options none opening
    if block.isEmpty || block.length = headers.length then []
    else
      let tallest := block.foldl (fun tallest header => max tallest header.height) 0
      let members := block.map HeaderHeight.selfRef
      let others := headers.filter
        (fun header => !members.contains header.selfRef && header.height > 0)
      if others.any (fun header => header.height ≥ options.deeperBelow * tallest) then []
      else if others.isEmpty then []
      else members

/-! ### Clusters of heights -/

/-- The buckets of headings, tallest first; each takes the depths below the one before.  Each bucket
has a heading, so the fuel is not used up when it is the number of headings. -/
def assignBuckets (deeperBelow : ℚ) (useFontStyle : Bool) :
    ℕ → (base : ℕ) → List HeaderHeight → List (String × ℕ)
  | fuel + 1, base, founder :: rest =>
    let within (header : HeaderHeight) : Bool := !(header.height < deeperBelow * founder.height)
    let bucket := (founder :: rest).takeWhile within
    let ranked (header : HeaderHeight) : Option ℕ :=
      if useFontStyle && header.hasFontStyle then some (styleRank header) else none
    let ranks := (bucket.filterMap ranked).dedup
    let offset (header : HeaderHeight) : ℕ :=
      match ranked header with
      | none => 0
      | some rank => (ranks.filter (rank < ·)).length
    bucket.map (fun header => (header.selfRef, base + offset header)) ++
      assignBuckets deeperBelow useFontStyle fuel (base + max 1 ranks.length)
        ((founder :: rest).dropWhile within)
  | _, _, _ => []

def clusterByHeight (headers : List HeaderHeight) (deeperBelow : ℚ) (useFontStyle : Bool)
    (depths : Map String ℕ) : Map String ℕ :=
  let flat := headers.filter (fun header => header.height ≤ 0)
  let sorted := sortOn (fun header => -header.height)
    (headers.filter (fun header => header.height > 0))
  Map.insertAll
    (flat.map (fun header => (header.selfRef, 1)) ++
      assignBuckets deeperBelow useFontStyle sorted.length 1 sorted)
    depths

/-- One step of the search for the nearest median; no distance is as yet infinite. -/
def nearerCluster (height : ℚ) (state : ℕ × Option ℚ) (cluster : ℕ × ℚ) : ℕ × Option ℚ :=
  let distance := |cluster.2 - height|
  if state.2.all (distance < ·) then (cluster.1, some distance) else state

/-- The depth a heading takes from the medians of the numbered clusters, least depth first. -/
def depthByNearestCluster (height : ℚ) (medians : List (ℕ × ℚ)) (deeperBelow : ℚ) : ℕ :=
  let first := medians.headD (0, 0)
  let last := medians.getLastD (0, 0)
  if height ≤ 0 then 1
  else if height > first.2 / deeperBelow then 1
  else if height < last.2 * deeperBelow then last.1 + 1
  else (medians.foldl (nearerCluster height) (first.1, none)).1

/-! ### Levels -/

/-- The depth a heading's text states. -/
def statedDepth (options : HeadingOptions) (header : HeaderHeight) : Option ℕ :=
  if options.useNumbering && !options.numberingSchemes.isEmpty then
    headingSchemeDepth header.text options.numberingSchemes
  else if options.useNumbering then
    (headingNumberingDepth header.text).or
      (if isSectionWordHeading header.text then some 1 else none)
  else none

/-- What the loop over the headings keeps. -/
structure Reading where
  depths : Map String ℕ := ∅
  clusterHeights : SortedMap ℕ (List ℚ) := {}
  unnumbered : List HeaderHeight := []

def Reading.visit (options : HeadingOptions) (title : List String) (reading : Reading)
    (header : HeaderHeight) : Reading :=
  if title.contains header.selfRef then reading
  else
    match statedDepth options header with
    | none => { reading with unnumbered := reading.unnumbered ++ [header] }
    | some depth =>
      { reading with
        depths := reading.depths.insert header.selfRef depth
        clusterHeights :=
          if header.height > 0 then
            (reading.clusterHeights.emplace depth []).modify depth (· ++ [header.height])
          else reading.clusterHeights }

def readHeadings (options : HeadingOptions) (title : List String) (headers : List HeaderHeight) :
    Reading :=
  headers.foldl (Reading.visit options title) {}

/-- The medians of the clusters, least depth first. -/
def Reading.medians (reading : Reading) : List (ℕ × ℚ) :=
  reading.clusterHeights.entries.map (fun cluster => (cluster.1, medianOf cluster.2))

/-- The depths of all headings that are no title. -/
def Reading.allDepths (options : HeadingOptions) (reading : Reading) : Map String ℕ :=
  if !options.useStyle then
    Map.insertAll (reading.unnumbered.map (fun header => (header.selfRef, 1))) reading.depths
  else if reading.clusterHeights.entries.isEmpty then
    clusterByHeight reading.unnumbered options.deeperBelow options.useFontStyle reading.depths
  else
    Map.insertAll
      (reading.unnumbered.map (fun header =>
        (header.selfRef,
          depthByNearestCluster header.height reading.medians options.deeperBelow)))
      reading.depths

/-- A depth, clamped to the ceiling. -/
def clampDepth (options : HeadingOptions) (depth : ℕ) : ℤ :=
  min (levelCeiling options) (max depth 1)

def inferHeadingLevels (input : List HeaderHeight) (options : HeadingOptions) : Map String ℤ :=
  let headers := normalized input
  let title := titleLines headers options
  let depths := (readHeadings options title headers).allDepths options
  Map.insertAll
    (headers.map (fun header =>
      (header.selfRef,
        if title.contains header.selfRef then 1
        else clampDepth options ((depths.lookup header.selfRef).getD 0))))
    ∅

end GRParse.Headings
