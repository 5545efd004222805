import GRParse.Document.Merge
import Mathlib.Algebra.Order.Field.Rat

/-!
# The sources of merged fields

A message that tracks its fields lists, for the path of each singular field, the collector whose
answer the field carries.  A merge on behalf of a claimant takes the answers that the target does
not have, displaces those whose recorded holder the claimant outranks, and records the claimant for
what it takes, whichever way the field comes.
-/

namespace GRParse.Merging

open Containers Protobuf List Option

/-! ### Sources -/

/-- A collector, as it claims its answers. -/
structure CollectorSource where
  collector : String
  confidence : Option ℚ := none
  rest : Message := .done
  deriving DecidableEq

/-- The collector whose answer the field at a path carries. -/
structure FieldSource where
  field : String
  source : CollectorSource
  deriving DecidableEq

/-- `recorded`: the source that is recorded for a path. -/
def recorded (list : List FieldSource) (path : String) : Option CollectorSource :=
  (list.find? (·.field = path)).map FieldSource.source

/-- `record`: the claimant becomes the source of a path. -/
def record (claimant : CollectorSource) (path : String) : List FieldSource → List FieldSource
  | [] => [⟨path, claimant⟩]
  | entry :: list =>
    if entry.field = path then { entry with source := claimant } :: list
    else entry :: record claimant path list

/-- Whether a text contains another. -/
def containsText (text part : String) : Bool :=
  part.toList <:+: text.toList

/-- `document_claim_rank`: the standing of a collector for a format. -/
def documentClaimRank (collector mimetype : String) : ℕ :=
  let ooxml := containsText mimetype "officedocument"
  let ole2 := mimetype = "application/msword" || containsText mimetype "ms-excel" ||
    containsText mimetype "ms-powerpoint"
  let opendocument := containsText mimetype "opendocument"
  let spreadsheet := containsText mimetype "spreadsheet" || containsText mimetype "ms-excel" ||
    mimetype = "text/csv"
  let office := ooxml || ole2 || opendocument || mimetype = "text/csv" ||
    mimetype = "application/rtf"
  if collector = "grparse" then 100
  else if collector = "calamine" then if spreadsheet then 2 else 0
  else if collector = "libreoffice" then if office then 1 else 0
  else if collector = "protomolt" then if mimetype = "application/pdf" then 4 else 0
  else 0

/-- Confidence decides when both state one, else standing for the format; a tie leaves the
incumbent. -/
def outranks (mimetype : String) (challenger incumbent : CollectorSource) : Bool :=
  match incumbent.confidence, challenger.confidence with
  | some held, some claimed =>
    if held ≠ claimed then held < claimed
    else documentClaimRank incumbent.collector mimetype <
      documentClaimRank challenger.collector mimetype
  | _, _ => documentClaimRank incumbent.collector mimetype <
    documentClaimRank challenger.collector mimetype

/-- Who merges, and for which format. -/
structure Claim where
  claimant : CollectorSource
  mimetype : String

/-- `claimant_wins`: against an answer that nobody is recorded for, no claimant does. -/
def claimantWins (claim : Claim) (list : List FieldSource) (path : String) : Bool :=
  match recorded list path with
  | none => false
  | some holder => outranks claim.mimetype claim.claimant holder

/-! ### The merge of a tracked message -/

/-- `claim_fields_under`: the claimant is recorded for every singular field that is answered. -/
def claimFieldsUnder (claimant : CollectorSource) (start : String) :
    (fields : Descriptor) → Record fields → List FieldSource → List FieldSource
  | .done, _, list => list
  | .single name rest, (value, record'), list =>
    claimFieldsUnder claimant start rest record'
      (if value.isSome then record claimant (start ++ name) list else list)
  | .repeated _ rest, (_, record'), list | .map _ rest, (_, record'), list =>
    claimFieldsUnder claimant start rest record' list
  | .message name nested rest, (value, record'), list =>
    claimFieldsUnder claimant start rest record' (match value with
      | none => list
      | some value => claimFieldsUnder claimant (start ++ name ++ ".") nested value list)

/-- `merge_message` below a tracked message, with the list of its sources. -/
def mergeFields (claim : Claim) (start : String) :
    (fields : Descriptor) → Record fields → Record fields → List FieldSource →
      Record fields × List FieldSource
  | .done, _, target, list => (target, list)
  | .single name rest, (value, source), (value', target), list =>
    let path := start ++ name
    let taken := value.isSome && (value'.isNone || claimantWins claim list path)
    let merged := mergeFields claim start rest source target
      (if taken then record claim.claimant path list else list)
    ((if taken then value else value', merged.1), merged.2)
  | .repeated _ rest, (elements, source), (elements', target), list =>
    let merged := mergeFields claim start rest source target list
    ((elements' ++ elements, merged.1), merged.2)
  | .map _ rest, (entries, source), (entries', target), list =>
    let merged := mergeFields claim start rest source target list
    ((entries' ++ entries.filter (fun entry => entry.1 ∉ entries'.map (·.1)), merged.1), merged.2)
  | .message name nested rest, (value, source), (value', target), list =>
    let start' := start ++ name ++ "."
    let first : Option (Record nested) × List FieldSource := match value, value' with
      | none, _ => (value', list)
      | some value, none => (some value, claimFieldsUnder claim.claimant start' nested value list)
      | some value, some value' =>
        let merged := mergeFields claim start' nested value value' list
        (some merged.1, merged.2)
    let merged := mergeFields claim start rest source target first.2
    ((first.1, merged.1), merged.2)

/-- A message that tracks its fields. -/
structure Tracked (fields : Descriptor) where
  fields : Record fields
  fieldSources : List FieldSource := []

/-- The merge of a tracked message: the list of the source is derived again, and so is that of a
message that is taken whole. -/
def mergeTracked (claim : Claim) {fields : Descriptor} :
    Option (Tracked fields) → Option (Tracked fields) → Option (Tracked fields)
  | none, target => target
  | some source, none =>
    some ⟨source.fields, claimFieldsUnder claim.claimant "" fields source.fields []⟩
  | some source, some target =>
    let merged := mergeFields claim "" fields source.fields target.fields target.fieldSources
    some ⟨merged.1, merged.2⟩

/-! ### Paths and answers -/

/-- The paths of the singular fields. -/
def paths (start : String) : Descriptor → List String
  | .done => []
  | .single name rest => (start ++ name) :: paths start rest
  | .repeated _ rest | .map _ rest => paths start rest
  | .message name nested rest => paths (start ++ name ++ ".") nested ++ paths start rest

/-- What the field at a path answers. -/
def answer (path start : String) : (fields : Descriptor) → Record fields → Option Message
  | .done, _ => none
  | .single name rest, (value, record') =>
    (if start ++ name = path then value else none).or (answer path start rest record')
  | .repeated _ rest, (_, record') | .map _ rest, (_, record') => answer path start rest record'
  | .message name nested rest, (value, record') =>
    (value.bind (answer path (start ++ name ++ ".") nested)).or (answer path start rest record')

theorem mem_paths_of_answer {path start : String} {fields : Descriptor} {record' : Record fields}
    (h : answer path start fields record' ≠ none) :
  path ∈ paths start fields
  := by
  induction fields generalizing start with
  | done => exact absurd rfl h
  | repeated name rest ih =>
    obtain ⟨elements, record'⟩ := record'
    exact ih h
  | map name rest ih =>
    obtain ⟨entries, record'⟩ := record'
    exact ih h
  | single name rest ih =>
    obtain ⟨value, record'⟩ := record'
    by_cases hpath : start ++ name = path
    · exact hpath ▸ mem_cons_self
    · rw [answer, if_neg hpath, none_or] at h
      exact mem_cons_of_mem _ (ih h)
  | message name nested rest ihNested ihRest =>
    obtain ⟨value, record'⟩ := record'
    rw [paths, mem_append]
    rw [answer] at h
    cases value with
    | none => exact .inr (ihRest h)
    | some value =>
      by_cases hnested : answer path (start ++ name ++ ".") nested value = none
      · rw [bind_some, hnested, none_or] at h
        exact .inr (ihRest h)
      · exact .inl (ihNested hnested)

/-- The claimant's answer is taken: there is one, and the target has none or is outranked. -/
def taken (claim : Claim) (claimed held : Option Message) (holder : Option CollectorSource) :
    Bool :=
  claimed.isSome && (held.isNone || holder.any (outranks claim.mimetype claim.claimant))

theorem claimantWins_eq (claim : Claim) (list : List FieldSource) (path : String) :
  claimantWins claim list path = (recorded list path).any (outranks claim.mimetype claim.claimant)
  := by
  rw [claimantWins]
  cases recorded list path <;> rfl

/-! ### Recording -/

theorem recorded_cons (entry : FieldSource) (list : List FieldSource) (path : String) :
  recorded (entry :: list) path =
    if entry.field = path then some entry.source else recorded list path
  := by
  rw [recorded, find?_cons]
  by_cases h : entry.field = path
  · simp [h]
  · simp [h, recorded]

theorem recorded_record (claimant : CollectorSource) (path other : String)
    (list : List FieldSource) :
  recorded (record claimant path list) other =
    if path = other then some claimant else recorded list other
  := by
  induction list with
  | nil =>
    by_cases h : path = other
    · simp [record, recorded, h]
    · simp [record, recorded, h]
  | cons entry list ih =>
    rw [record]
    split
    case isTrue hpath =>
      rw [recorded_cons, recorded_cons, ← hpath]
      split
      · rfl
      · rfl
    case isFalse hpath =>
      rw [recorded_cons, recorded_cons, ih]
      by_cases h : entry.field = other
      · have hne : path ≠ other := fun heq => hpath (h.trans heq.symm)
        rw [if_pos h, if_neg hne, if_pos h]
      · rw [if_neg h, if_neg h]

theorem map_field_record (claimant : CollectorSource) (path : String) (list : List FieldSource) :
  (record claimant path list).map FieldSource.field =
    if path ∈ list.map FieldSource.field then list.map FieldSource.field
    else list.map FieldSource.field ++ [path]
  := by
  induction list with
  | nil => rfl
  | cons entry list ih =>
    rw [record]
    split
    case isTrue hpath => simp [hpath]
    case isFalse hpath =>
      rw [map_cons, ih, map_cons]
      have hne : path ≠ entry.field := Ne.symm hpath
      by_cases h : path ∈ list.map FieldSource.field
      · rw [if_pos h, if_pos (mem_cons_of_mem _ h)]
      · rw [if_neg h, if_neg (by simpa [hne] using h)]
        rfl

/-- No path is recorded twice. -/
def Unique (list : List FieldSource) : Prop :=
  (list.map FieldSource.field).Nodup

theorem Unique.record {list : List FieldSource} (h : Unique list) (claimant : CollectorSource)
    (path : String) :
  Unique (record claimant path list)
  := by
  rw [Unique, map_field_record]
  split
  case isTrue => exact h
  case isFalse hpath =>
    rw [nodup_append]
    refine ⟨h, nodup_singleton path, fun field hfield other hother => ?_⟩
    rw [mem_singleton.mp hother]
    exact fun heq => hpath (heq ▸ hfield)

/-- An entry of a list without repetitions is what is recorded for its path. -/
theorem Unique.recorded_of_mem {list : List FieldSource} (h : Unique list) {entry : FieldSource}
    (hentry : entry ∈ list) :
  recorded list entry.field = some entry.source
  := by
  induction list with
  | nil => cases hentry
  | cons first list ih =>
    obtain ⟨hfirst, hrest⟩ := nodup_cons.mp h
    rw [recorded_cons]
    obtain rfl | hmem := mem_cons.mp hentry
    · exact if_pos rfl
    · rw [if_neg fun heq : first.field = entry.field =>
        hfirst (heq ▸ mem_map_of_mem hmem)]
      exact ih hrest hmem

theorem exists_of_recorded {list : List FieldSource} {path : String} {source : CollectorSource}
    (h : recorded list path = some source) :
  ⟨path, source⟩ ∈ list
  := by
  obtain ⟨⟨field, held⟩, hfind, rfl⟩ := map_eq_some_iff.mp h
  obtain rfl : field = path := by simpa using find?_some hfind
  exact mem_of_find?_eq_some hfind

/-! ### What a merge takes and records -/

/-- What is recorded after the claimant's answers are claimed. -/
structure Claimed (claimant : CollectorSource) (answers : String → Option Message)
    (list list' : List FieldSource) : Prop where
  unique : Unique list → Unique list'
  recorded : ∀ path, recorded list' path =
    if (answers path).isSome then some claimant else recorded list path

theorem claimed_claimFieldsUnder (claimant : CollectorSource) (start : String)
    (fields : Descriptor) (source : Record fields) (list : List FieldSource) :
  Claimed claimant (answer · start fields source) list
    (claimFieldsUnder claimant start fields source list)
  := by
  induction fields generalizing start list with
  | done => exact ⟨id, fun _ => rfl⟩
  | repeated name rest ih =>
    obtain ⟨elements, source⟩ := source
    exact ih start source list
  | map name rest ih =>
    obtain ⟨entries, source⟩ := source
    exact ih start source list
  | single name rest ih =>
    obtain ⟨value, source⟩ := source
    obtain ⟨hunique, hrecorded⟩ := ih start source
      (if value.isSome then record claimant (start ++ name) list else list)
    constructor
    case unique =>
      refine fun h => hunique ?_
      split
      · exact h.record claimant _
      · exact h
    case recorded =>
      intro path
      rw [claimFieldsUnder, hrecorded, answer]
      by_cases hpath : start ++ name = path
      · rw [if_pos hpath]
        cases value with
        | none => rfl
        | some value =>
          rw [isSome_some, if_pos rfl, recorded_record, if_pos hpath]
          exact ite_self _
      · rw [if_neg hpath, none_or]
        congr 1
        split
        · rw [recorded_record, if_neg hpath]
        · rfl
  | message name nested rest ihNested ihRest =>
    obtain ⟨value, source⟩ := source
    cases value with
    | none => exact ihRest start source list
    | some value =>
      obtain ⟨hunique, hrecorded⟩ := ihNested (start ++ name ++ ".") value list
      obtain ⟨hunique', hrecorded'⟩ := ihRest start source
        (claimFieldsUnder claimant (start ++ name ++ ".") nested value list)
      refine ⟨fun h => hunique' (hunique h), fun path => ?_⟩
      rw [claimFieldsUnder, hrecorded', hrecorded, answer, bind_some]
      cases answer path (start ++ name ++ ".") nested value <;>
        cases answer path start rest source <;> rfl

/-- What a merge takes and records. -/
structure Merges (claim : Claim) (source target result : String → Option Message)
    (list list' : List FieldSource) : Prop where
  unique : Unique list → Unique list'
  answer : ∀ path, result path =
    if taken claim (source path) (target path) (recorded list path) then source path
    else target path
  recorded : ∀ path, recorded list' path =
    if taken claim (source path) (target path) (recorded list path) then some claim.claimant
    else recorded list path

theorem Claimed.merges {claim : Claim} {source : String → Option Message}
    {list list' : List FieldSource} (h : Claimed claim.claimant source list list') :
  Merges claim source (fun _ => none) source list list'
  := by
  constructor
  case unique => exact h.unique
  case answer =>
    intro path
    cases hsource : source path with
    | none => exact (ite_self _).symm
    | some value => rfl
  case recorded =>
    intro path
    rw [h.recorded]
    cases source path <;> rfl

/-- Where the claimant answers nothing the target stays. -/
theorem Merges.unclaimed (claim : Claim) (target : String → Option Message)
    (list : List FieldSource) :
  Merges claim (fun _ => none) target target list list
  := ⟨id, fun _ => rfl, fun _ => rfl⟩

/-- Merges of different fields, one after the other. -/
theorem Merges.append {claim : Claim} {source target result : String → Option Message}
    {source' target' result' : String → Option Message} {list list' list'' : List FieldSource}
    (first : Merges claim source target result list list')
    (second : Merges claim source' target' result' list' list'')
    (hdisjoint : ∀ path, source path = none ∧ target path = none ∨
      source' path = none ∧ target' path = none) :
  Merges claim (fun path => (source path).or (source' path))
    (fun path => (target path).or (target' path)) (fun path => (result path).or (result' path))
    list list''
  := by
  have hnone : ∀ holder, taken claim none none holder = false := fun _ => rfl
  refine ⟨fun h => second.unique (first.unique h), fun path => ?_, fun path => ?_⟩
  · rw [first.answer, second.answer, first.recorded]
    obtain ⟨hsource, htarget⟩ | ⟨hsource, htarget⟩ := hdisjoint path
    · simp only [hsource, htarget, hnone, none_or, if_false, Bool.false_eq_true]
    · simp only [hsource, htarget, hnone, or_none, if_false, Bool.false_eq_true]
  · rw [second.recorded, first.recorded]
    obtain ⟨hsource, htarget⟩ | ⟨hsource, htarget⟩ := hdisjoint path
    · simp only [hsource, htarget, hnone, none_or, if_false, Bool.false_eq_true]
    · simp only [hsource, htarget, hnone, or_none, if_false, Bool.false_eq_true]

/-- The merge of one singular field. -/
theorem merges_single (claim : Claim) (path : String) (value value' : Option Message)
    (list : List FieldSource) :
  Merges claim (fun other => if path = other then value else none)
    (fun other => if path = other then value' else none)
    (fun other => if path = other then
      if taken claim value value' (recorded list path) then value else value' else none) list
    (if taken claim value value' (recorded list path) then record claim.claimant path list
      else list)
  := by
  refine ⟨fun h => ?_, fun other => ?_, fun other => ?_⟩
  · split
    · exact h.record claim.claimant path
    · exact h
  · by_cases hpath : path = other
    · simp only [hpath, if_true]
    · simp only [hpath, if_false, ite_self]
  · by_cases hpath : path = other
    · subst hpath
      simp only [if_true]
      split
      · rw [recorded_record, if_pos rfl]
      · rfl
    · simp only [hpath, if_false]
      split
      · rw [recorded_record, if_neg hpath]
        rfl
      · rfl

/-- A merge takes and records what the claimant answers for the fields that it wins. -/
theorem merges_mergeFields (claim : Claim) {start : String} {fields : Descriptor}
    (hpaths : (paths start fields).Nodup) (source target : Record fields)
    (list : List FieldSource) :
  Merges claim (answer · start fields source) (answer · start fields target)
    (answer · start fields (mergeFields claim start fields source target list).1) list
    (mergeFields claim start fields source target list).2
  := by
  induction fields generalizing start list with
  | done => exact ⟨id, fun _ => rfl, fun _ => rfl⟩
  | repeated name rest ih =>
    obtain ⟨elements, source⟩ := source
    obtain ⟨elements', target⟩ := target
    exact ih hpaths source target list
  | map name rest ih =>
    obtain ⟨entries, source⟩ := source
    obtain ⟨entries', target⟩ := target
    exact ih hpaths source target list
  | single name rest ih =>
    obtain ⟨value, source⟩ := source
    obtain ⟨value', target⟩ := target
    obtain ⟨hname, hrest⟩ := nodup_cons.mp hpaths
    have hown : ∀ record' : Record rest, answer (start ++ name) start rest record' = none :=
      fun record' => by_contra fun h => hname (mem_paths_of_answer h)
    rw [mergeFields]
    dsimp only
    rw [claimantWins_eq, ← taken]
    refine (merges_single claim (start ++ name) value value' list).append (ih hrest source target _)
      fun path => ?_
    by_cases hpath : start ++ name = path
    · exact .inr (hpath ▸ ⟨hown source, hown target⟩)
    · exact .inl ⟨if_neg hpath, if_neg hpath⟩
  | message name nested rest ihNested ihRest =>
    obtain ⟨value, source⟩ := source
    obtain ⟨value', target⟩ := target
    rw [paths, nodup_append] at hpaths
    obtain ⟨hnested, hrest, hdisjoint⟩ := hpaths
    have hnone : ∀ path (below below' : Option (Record nested)),
        below.bind (answer path (start ++ name ++ ".") nested) = none ∧
          below'.bind (answer path (start ++ name ++ ".") nested) = none ∨
        answer path start rest source = none ∧ answer path start rest target = none := by
      intro path below below'
      by_cases hpath : path ∈ paths start rest
      · have hbelow : ∀ record' : Record nested,
            answer path (start ++ name ++ ".") nested record' = none := fun record' =>
          by_contra fun h => hdisjoint path (mem_paths_of_answer h) path hpath rfl
        left
        constructor
        · cases below with
          | none => rfl
          | some => exact hbelow _
        · cases below' with
          | none => rfl
          | some => exact hbelow _
      · exact .inr ⟨by_contra fun h => hpath (mem_paths_of_answer h),
          by_contra fun h => hpath (mem_paths_of_answer h)⟩
    cases value with
    | none =>
      exact (Merges.unclaimed claim _ list).append (ihRest hrest source target list)
        fun path => hnone path none value'
    | some value =>
      cases value' with
      | none =>
        exact (claimed_claimFieldsUnder claim.claimant _ nested value list).merges.append
          (ihRest hrest source target _) fun path => hnone path (some value) none
      | some value' =>
        exact (ihNested hnested value value' list).append (ihRest hrest source target _)
          fun path => hnone path (some value) (some value')

/-- What a field of a tracked message answers, if the message is set. -/
def trackedAnswer {fields : Descriptor} (message : Option (Tracked fields)) (path : String) :
    Option Message :=
  message.bind fun tracked => answer path "" fields tracked.fields

/-- The list of a tracked message, if it is set. -/
def trackedSources {fields : Descriptor} (message : Option (Tracked fields)) : List FieldSource :=
  message.elim [] Tracked.fieldSources

theorem merges_mergeTracked (claim : Claim) {fields : Descriptor}
    (hpaths : (paths "" fields).Nodup) (source target : Option (Tracked fields)) :
  Merges claim (trackedAnswer source) (trackedAnswer target)
    (trackedAnswer (mergeTracked claim source target)) (trackedSources target)
    (trackedSources (mergeTracked claim source target))
  := by
  cases source with
  | none => exact Merges.unclaimed claim (trackedAnswer target) (trackedSources target)
  | some source =>
    cases target with
    | none =>
      have h := claimed_claimFieldsUnder claim.claimant "" fields source.fields []
      exact h.merges
    | some target =>
      have h := merges_mergeFields claim hpaths source.fields target.fields target.fieldSources
      exact h

/-! ### Documents -/

def webMeta : Descriptor :=
  .single "target_uri" <| .single "canonical_uri" <| .single "crawl_time" <|
    .single "http_status" <| .single "content_language" <| .map "headers" <|
    .single "crawl_time_raw" .done

def licenseMeta : Descriptor :=
  .single "type_uri" <| .single "statement" <| .single "copyright_statement" <|
    .single "copyright_year" <| .single "copyright_holder" .done

def civilDateTime : Descriptor :=
  .single "year" <| .single "month" <| .single "day" <| .single "hour" <| .single "minute" <|
    .single "second" <| .single "nanos" <| .single "utc_offset_minutes" .done

def documentStatistics : Descriptor :=
  .single "pages" <| .single "words" <| .single "characters" <| .single "paragraphs" <|
    .single "tables" <| .single "images" <| .single "objects" <| .single "cells" <|
    .single "sheets" .done

def protection : Descriptor :=
  .single "encrypted" <| .single "handler" <| .single "key_bits" <|
    .single "opened_without_password" <| .single "allows_extraction" <|
    .single "allows_printing" .done

/-- The fields of `DocumentOrigin` but for its list. -/
def documentOrigin : Descriptor :=
  .single "mimetype" <| .single "binary_hash" <| .single "filename" <| .single "uri" <|
    .message "web" webMeta <| .single "source_id" <| .single "mimetype_evidence" .done

/-- The fields of `DocumentMeta` but for its list. -/
def documentMeta : Descriptor :=
  .single "title" <| .repeated "authors" <| .single "created" <| .single "modified" <|
    .single "language" <| .single "generator" <| .repeated "keywords" <|
    .single "schema_location" <| .single "created_raw" <| .single "modified_raw" <|
    .repeated "identifiers" <| .repeated "classifications" <| .message "license" licenseMeta <|
    .repeated "funding" <| .repeated "namespaces" <| .repeated "schema_locations" <|
    .message "created_civil" civilDateTime <| .message "modified_civil" civilDateTime <|
    .single "subject" <| .single "modified_by" <| .single "printed" <| .single "printed_raw" <|
    .single "printer" <| .single "template" <| .single "editing_cycles" <|
    .single "editing_duration_seconds" <| .message "statistics" documentStatistics <|
    .repeated "user_properties" <| .single "format_version" <| .single "structured" <|
    .single "authoring_tool" <| .message "protection" protection <| .single "raw_metadata" <|
    .single "trapped" <| .map "extra" <| .single "description" <| .single "category" <|
    .single "content_status" <| .single "revision" <| .single "application_version" <|
    .single "company" <| .single "manager" .done

/-- The messages of a document that track their fields. -/
inductive Root where
  | origin
  | sourceMeta
  deriving DecidableEq

def Root.fields : Root → Descriptor
  | origin => documentOrigin
  | sourceMeta => documentMeta

theorem nodup_paths (root : Root) :
  (paths "" root.fields).Nodup
  := by
  cases root <;> decide

/-- One collector's account of a document, whole. -/
structure CollectorClaim (emailMeta mediaMeta : Descriptor) where
  source : CollectorSource
  account : (root : Root) → Option (Record root.fields)
  pageStyles : List Message
  email : Option (Record emailMeta)
  media : Option (Record mediaMeta)

/-- A document with what its collectors say about it. -/
structure ClaimedDocument (groupRest rest emailMeta mediaMeta : Descriptor)
    extends Document groupRest rest where
  tracked : (root : Root) → Option (Tracked root.fields)
  pageStyles : List Message := []
  email : Option (Record emailMeta) := none
  media : Option (Record mediaMeta) := none
  claims : List (CollectorClaim emailMeta mediaMeta) := []

variable {groupRest rest emailMeta mediaMeta : Descriptor}

/-- `claim_of`: the account of a source, if it says anything at the document level. -/
def claimOf (source : ClaimedDocument groupRest rest emailMeta mediaMeta) (claimant : CollectorSource) :
    Option (CollectorClaim emailMeta mediaMeta) :=
  if (source.tracked .sourceMeta).isNone && (source.tracked .origin).isNone &&
      source.pageStyles.isEmpty && source.email.isNone && source.media.isNone then none
  else some ⟨claimant, fun root => (source.tracked root).map Tracked.fields, source.pageStyles,
    source.email, source.media⟩

/-- The MIME type of the origin. -/
def ClaimedDocument.mimetype (document : ClaimedDocument groupRest rest emailMeta mediaMeta) : String :=
  (document.tracked .origin).elim "" fun origin => origin.fields.1.elim "" (·.getString "mimetype")

/-- `merge_message` of a tracked message without a claimant. -/
def mergeUnclaimed {fields : Descriptor} :
    Option (Tracked fields) → Option (Tracked fields) → Option (Tracked fields) :=
  Option.merge fun source target =>
    ⟨source.fields.merge fields target.fields, target.fieldSources ++ source.fieldSources⟩

/-- `rewrite_refs` on what a collector says; no tracked field holds a reference. -/
def CollectorClaim.rewriteRefs (mapping : RefMap) (claim : CollectorClaim emailMeta mediaMeta) :
    CollectorClaim emailMeta mediaMeta :=
  { claim with
    pageStyles := claim.pageStyles.map (·.mapStrings isReference mapping.rename)
    email := claim.email.map (Record.mapStrings isReference mapping.rename emailMeta)
    media := claim.media.map (Record.mapStrings isReference mapping.rename mediaMeta) }

/-- `merge_documents` on behalf of a claimant; one without a name tracks nothing. -/
def mergeClaimed (source target : ClaimedDocument groupRest rest emailMeta mediaMeta)
    (claimant : CollectorSource) : ClaimedDocument groupRest rest emailMeta mediaMeta :=
  let mapping := renumbering source.toDocument target.toDocument
  let rename := fun message : Message => message.mapStrings isReference mapping.rename
  let named := claimant.collector ≠ ""
  { mergeDocuments source.toDocument target.toDocument with
    tracked := fun root =>
      if named then mergeTracked ⟨claimant, target.mimetype⟩ (source.tracked root) (target.tracked root)
      else mergeUnclaimed (source.tracked root) (target.tracked root)
    pageStyles := target.pageStyles ++ source.pageStyles.map rename
    email := Option.merge (Record.merge emailMeta)
      (source.email.map (Record.mapStrings isReference mapping.rename emailMeta)) target.email
    media := Option.merge (Record.merge mediaMeta)
      (source.media.map (Record.mapStrings isReference mapping.rename mediaMeta)) target.media
    claims := target.claims ++ source.claims.map (·.rewriteRefs mapping) ++
      (if named then (claimOf source claimant).toList else []) }

/-- A sequence of merges. -/
def mergeAll (target : ClaimedDocument groupRest rest emailMeta mediaMeta)
    (steps : List (ClaimedDocument groupRest rest emailMeta mediaMeta × CollectorSource)) :
    ClaimedDocument groupRest rest emailMeta mediaMeta :=
  steps.foldl (fun target step => mergeClaimed step.1 target step.2) target

/-- What a field of a tracked message answers. -/
def ClaimedDocument.answer (document : ClaimedDocument groupRest rest emailMeta mediaMeta) (root : Root)
    (path : String) : Option Message :=
  trackedAnswer (document.tracked root) path

/-- The list of a tracked message. -/
def ClaimedDocument.fieldSources (document : ClaimedDocument groupRest rest emailMeta mediaMeta)
    (root : Root) : List FieldSource :=
  trackedSources (document.tracked root)

/-! ### Whose answers a document carries -/

/-- A merge on behalf of a claimant takes and records what the claimant answers for the fields that
it wins. -/
theorem merges_mergeClaimed (source target : ClaimedDocument groupRest rest emailMeta mediaMeta)
    {claimant : CollectorSource} (hnamed : claimant.collector ≠ "") (root : Root) :
  Merges ⟨claimant, target.mimetype⟩ (source.answer root) (target.answer root)
    ((mergeClaimed source target claimant).answer root) (target.fieldSources root)
    ((mergeClaimed source target claimant).fieldSources root)
  := by
  have htracked : (mergeClaimed source target claimant).tracked root =
      mergeTracked ⟨claimant, target.mimetype⟩ (source.tracked root) (target.tracked root) :=
    if_pos hnamed
  have h := merges_mergeTracked ⟨claimant, target.mimetype⟩ (nodup_paths root)
    (source.tracked root) (target.tracked root)
  rw [← htracked] at h
  exact h

theorem mergeAll_concat (target : ClaimedDocument groupRest rest emailMeta mediaMeta)
    (steps : List (ClaimedDocument groupRest rest emailMeta mediaMeta × CollectorSource))
    (step : ClaimedDocument groupRest rest emailMeta mediaMeta × CollectorSource) :
  mergeAll target (steps ++ [step]) = mergeClaimed step.1 (mergeAll target steps) step.2
  := by
  rw [mergeAll, foldl_append]
  rfl

/-- The answer of a field has come from the source, and none has come since: it is that of a merge
on behalf of the source, or it has been recorded from the start. -/
def CarriedFrom (target : ClaimedDocument groupRest rest emailMeta mediaMeta)
    (steps : List (ClaimedDocument groupRest rest emailMeta mediaMeta × CollectorSource))
    (root : Root) (entry : FieldSource) : Prop :=
  (∃ before step after, steps = before ++ step :: after ∧ step.2 = entry.source ∧
    step.1.answer root entry.field ≠ none ∧ ∀ later, later <+: after →
      (mergeAll target (before ++ step :: later)).answer root entry.field =
        step.1.answer root entry.field) ∨
  entry ∈ target.fieldSources root ∧ ∀ before, before <+: steps →
    (mergeAll target before).answer root entry.field = target.answer root entry.field


/-- After a merge the answer of a field is still that of its recorded source, or the claimant's. -/
theorem CarriedFrom.step {target : ClaimedDocument groupRest rest emailMeta mediaMeta}
    {steps : List (ClaimedDocument groupRest rest emailMeta mediaMeta × CollectorSource)}
    {root : Root} {entry : FieldSource} (h : CarriedFrom target steps root entry)
    {step : ClaimedDocument groupRest rest emailMeta mediaMeta × CollectorSource}
    (hstays : (mergeAll target (steps ++ [step])).answer root entry.field =
      (mergeAll target steps).answer root entry.field) :
  CarriedFrom target (steps ++ [step]) root entry
  := by
  obtain ⟨before, giver, after, rfl, hsource, hanswers, hcarried⟩ | ⟨hentry, hcarried⟩ := h
  · refine .inl ⟨before, giver, after ++ [step], by simp, hsource, hanswers, fun later hlater => ?_⟩
    obtain rfl | hlater := prefix_concat_iff.mp hlater
    · have hlast := hcarried after prefix_rfl
      rw [← hlast, ← hstays, append_assoc]
      rfl
    · exact hcarried later hlater
  · refine .inr ⟨hentry, fun before hbefore => ?_⟩
    obtain rfl | hbefore := prefix_concat_iff.mp hbefore
    · exact hstays.trans (hcarried steps prefix_rfl)
    · exact hcarried before hbefore

section Run

variable (target : ClaimedDocument groupRest rest emailMeta mediaMeta)
variable {steps : List (ClaimedDocument groupRest rest emailMeta mediaMeta × CollectorSource)}
variable {step : ClaimedDocument groupRest rest emailMeta mediaMeta × CollectorSource}

theorem merges_concat
    (steps : List (ClaimedDocument groupRest rest emailMeta mediaMeta × CollectorSource))
    (hnamed : step.2.collector ≠ "") (root : Root) :
  Merges ⟨step.2, (mergeAll target steps).mimetype⟩ (step.1.answer root)
    ((mergeAll target steps).answer root) ((mergeAll target (steps ++ [step])).answer root)
    ((mergeAll target steps).fieldSources root)
    ((mergeAll target (steps ++ [step])).fieldSources root)
  := by
  rw [mergeAll_concat]
  exact merges_mergeClaimed _ _ hnamed root

theorem unique_mergeAll {root : Root} (hunique : Unique (target.fieldSources root))
    (hnamed : ∀ step ∈ steps, step.2.collector ≠ "") :
  Unique ((mergeAll target steps).fieldSources root)
  := by
  induction steps using reverseRecOn with
  | nil => exact hunique
  | append_singleton steps step ih =>
    obtain ⟨hsteps, hstep⟩ := forall_mem_append.mp hnamed
    have hmerges := merges_concat target steps (hstep step mem_cons_self) root
    exact hmerges.unique (ih hsteps)

/-- Every entry names the source that the answer of its field has come from. -/
theorem carriedFrom_mergeAll {root : Root} (hunique : Unique (target.fieldSources root))
    (hnamed : ∀ step ∈ steps, step.2.collector ≠ "") {entry : FieldSource}
    (hentry : entry ∈ (mergeAll target steps).fieldSources root) :
  CarriedFrom target steps root entry
  := by
  induction steps using reverseRecOn with
  | nil =>
    refine .inr ⟨hentry, fun before hbefore => ?_⟩
    rw [prefix_nil.mp hbefore]
    rfl
  | append_singleton steps step ih =>
    have hrecorded := (unique_mergeAll target hunique hnamed).recorded_of_mem hentry
    obtain ⟨hsteps, hstep⟩ := forall_mem_append.mp hnamed
    have hmerges := merges_concat target steps (hstep step mem_cons_self) root
    rw [hmerges.recorded] at hrecorded
    have hanswer := hmerges.answer entry.field
    split at hrecorded
    case isTrue htaken =>
      -- The claimant's answer has been taken.
      rw [if_pos htaken] at hanswer
      have hanswers : step.1.answer root entry.field ≠ none := by
        intro hnone
        rw [hnone] at htaken
        cases htaken
      refine .inl ⟨steps, step, [], rfl, some.inj hrecorded, hanswers, fun later hlater => ?_⟩
      rw [prefix_nil.mp hlater]
      exact hanswer
    case isFalse hstays =>
      rw [if_neg hstays] at hanswer
      exact (ih hsteps (exists_of_recorded hrecorded)).step hanswer

end Run

/-- In every sequence of merges with named claimants no path is recorded twice, every entry names
the source that the answer of its field has come from, and an answer is displaced only by a
claimant that wins against its recorded holder. -/
theorem fieldSources_mergeAll (target : ClaimedDocument groupRest rest emailMeta mediaMeta)
    (hunique : ∀ root, Unique (target.fieldSources root))
    (steps : List (ClaimedDocument groupRest rest emailMeta mediaMeta × CollectorSource))
    (hnamed : ∀ step ∈ steps, step.2.collector ≠ "") (root : Root) :
  Unique ((mergeAll target steps).fieldSources root) ∧
    (∀ entry ∈ (mergeAll target steps).fieldSources root, CarriedFrom target steps root entry) ∧
    ∀ before step after, steps = before ++ step :: after → ∀ path answer,
      (mergeAll target before).answer root path = some answer →
      (mergeAll target (before ++ [step])).answer root path ≠ some answer →
      claimantWins ⟨step.2, (mergeAll target before).mimetype⟩
        ((mergeAll target before).fieldSources root) path
  := by
  refine ⟨unique_mergeAll target (hunique root) hnamed,
    fun entry hentry => carriedFrom_mergeAll target (hunique root) hnamed hentry, ?_⟩
  rintro before step after rfl path answer hanswer hdisplaced
  have hmerges := merges_concat target before (hnamed step (by simp)) root
  have h := hmerges.answer path
  rw [hanswer] at h
  rw [claimantWins_eq]
  by_contra hloses
  rw [h, taken] at hdisplaced
  simp [hloses] at hdisplaced

/-- A document whose metadata have a title. -/
def titled (title : String) (list : List FieldSource) :
    ClaimedDocument .done .done .done .done where
  arena _ := []
  fields := (none, none, [], ())
  tracked
    | .origin => none
    | .sourceMeta => some ⟨(some (.string "title" title .done), [], none, none, none, none, [], none,
        none, none, [], [], none, [], [], [], none, none, none, none, none, none, none, none, none,
        none, none, [], none, none, none, none, none, none, [], none, none, none, none, none, none,
        none, ()), list⟩

/-- The service outranks the collector that has named the title before. -/
theorem fieldSources_mergeAll_titled :
  let before := titled "old" [⟨"title", ⟨"calamine", none, .done⟩⟩]
  let steps := [(titled "new" [], ⟨"grparse", none, .done⟩)]
  (mergeAll before steps).fieldSources .sourceMeta = [⟨"title", ⟨"grparse", none, .done⟩⟩] ∧
    ∀ entry ∈ (mergeAll before steps).fieldSources .sourceMeta,
      CarriedFrom before steps .sourceMeta entry
  := by
  intro before steps
  refine ⟨by decide +kernel, (fieldSources_mergeAll before (fun root => ?_) steps ?_ .sourceMeta).2.1⟩
  · rw [Unique]
    cases root <;> decide +kernel
  · decide +kernel

end GRParse.Merging
