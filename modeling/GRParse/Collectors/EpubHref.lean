import GRParse.Lib.CommonMark
import GRParse.Lib.Joined
import GRParse.Lib.PercentCoding
import Mathlib.Data.List.DropRight
import Mathlib.Data.List.Forall2

/-!
# References in a book

The reference of a chapter to another file of the archive is cut at its fragment, decoded and
walked along from the directory of the chapter.  What comes out is a path of the archive, and a
relative reference to a file comes back to the path of that file, if there is a step in it.
-/

namespace GRParse.Epub

open List

open CommonMark (isAlpha isAlphanumeric)
open Json (hexValue)
open Percent (decode octet)

/-! ### The functions -/

/-- The bytes behind the first that a scheme may have. -/
def isSchemeByte (byte : UInt8) : Bool :=
  isAlphanumeric byte || byte = 0x2b || byte = 0x2d || byte = 0x2e

/-- The loop of `has_scheme`. -/
def colonEnds : List UInt8 → Bool
  | [] => false
  | byte :: rest =>
    if byte = 0x3a then true
    else if !isSchemeByte byte then false
    else colonEnds rest

def hasScheme (reference : List UInt8) : Bool :=
  match reference with
  | [] => false
  | first :: _ => if !isAlpha first then false else colonEnds reference

/-- The segment of the directory above. -/
def kAbove : List UInt8 := [0x2e, 0x2e]

/-- The segment of the directory itself. -/
def kHere : List UInt8 := [0x2e]

/-- One step of the loop of `normalize_path`, on the segment stack. -/
def pushSegment (segments : List (List UInt8)) (segment : List UInt8) : List (List UInt8) :=
  if segment = kAbove then segments.dropLast
  else if segment ≠ [] ∧ segment ≠ kHere then segments ++ [segment]
  else segments

def normalizePath (path : List UInt8) : List UInt8 :=
  Joined.join 0x2f ((path.splitOn 0x2f).foldl pushSegment [])

/-- The path up to its last slash, with the slash. -/
def baseDir (chapterHref : List UInt8) : List UInt8 :=
  chapterHref.rdropWhile (· != 0x2f)

def resolveEpubHref (chapterHref reference : List UInt8) : List UInt8 :=
  let trimmed := reference.takeWhile fun byte => byte != 0x23 && byte != 0x3f
  if trimmed = [] ∨ hasScheme trimmed then []
  else
    let decoded := decode trimmed
    if decoded.head? = some 0x2f then normalizePath decoded
    else normalizePath (baseDir chapterHref ++ decoded)

/-! ### Paths -/

/-- A segment of a path of the archive. -/
structure IsSegment (segment : List UInt8) : Prop where
  ne_nil : segment ≠ []
  ne_here : segment ≠ kHere
  ne_above : segment ≠ kAbove
  slash : 0x2f ∉ segment

/-- The segments of a path of the archive. -/
abbrev IsPath (segments : List (List UInt8)) : Prop :=
  ∀ segment ∈ segments, IsSegment segment

/-- The segments of a path, slash-joined. -/
def pathOf (segments : List (List UInt8)) : List UInt8 :=
  [0x2f].intercalate segments

theorem IsPath.slash {segments : List (List UInt8)} (h : IsPath segments) :
  ∀ segment ∈ segments, 0x2f ∉ segment
  := fun segment hsegment => (h segment hsegment).slash

theorem IsPath.dropLast {segments : List (List UInt8)} (h : IsPath segments) :
  IsPath segments.dropLast
  := fun segment hsegment => h segment (dropLast_subset _ hsegment)

theorem pathOf_cons_cons (first second : List UInt8) (rest : List (List UInt8)) :
  pathOf (first :: second :: rest) = first ++ 0x2f :: pathOf (second :: rest)
  := by
  rw [pathOf, intercalate_cons_cons, append_assoc]
  rfl

variable {segments : List (List UInt8)}

theorem pathOf_concat (h : segments ≠ []) (segment : List UInt8) :
  pathOf (segments ++ [segment]) = pathOf segments ++ 0x2f :: segment
  := by
  induction segments with
  | nil => exact absurd rfl h
  | cons first rest ih =>
    cases rest with
    | nil => simp [pathOf, intercalate_cons_cons]
    | cons second rest =>
      rw [cons_append, cons_append, pathOf_cons_cons, pathOf_cons_cons,
        ← cons_append, ih (cons_ne_nil _ _), append_assoc]
      rfl

/-- Joining the segments of a path sets a slash between each two of them. -/
theorem join_eq_pathOf (h : IsPath segments) :
  Joined.join 0x2f segments = pathOf segments
  := by
  induction segments using reverseRecOn with
  | nil => rfl
  | append_singleton segments segment ih =>
    have hsegments : IsPath segments := fun other hother => h other (mem_append_left _ hother)
    rw [Joined.join_concat, Joined.addPart]
    obtain rfl | hne := eq_or_ne segments []
    · simp [Joined.join, pathOf]
    · rw [if_neg (mt (Joined.join_eq_nil_iff fun part hpart => (hsegments part hpart).ne_nil).mp hne),
        ih hsegments, pathOf_concat hne, append_assoc]
      rfl

theorem slash_notMem_of_mem_splitOn {path segment : List UInt8} (h : segment ∈ path.splitOn 0x2f) :
  0x2f ∉ segment
  := by
  induction path generalizing segment with
  | nil =>
    rw [splitOn_nil, mem_singleton] at h
    rw [h]
    exact not_mem_nil
  | cons byte rest ih =>
    rw [splitOn_cons_eq_if_modifyHead] at h
    split at h
    case isTrue =>
      rcases mem_cons.mp h with rfl | hrest
      · exact not_mem_nil
      · exact ih hrest
    case isFalse hbyte =>
      cases hsplit : rest.splitOn 0x2f with
      | nil => exact absurd hsplit (splitOn_ne_nil _ _)
      | cons first more =>
        rw [hsplit] at h ih
        rcases mem_cons.mp h with rfl | hmore
        · rw [mem_cons, not_or]
          use fun heq => hbyte (by simp [← heq])
          exact ih mem_cons_self
        · exact ih (mem_cons_of_mem _ hmore)

variable {segment : List UInt8}

/-- A step keeps the stack a path. -/
theorem isPath_pushSegment (h : IsPath segments) (hslash : 0x2f ∉ segment) :
  IsPath (pushSegment segments segment)
  := by
  rw [pushSegment]
  split
  case isTrue => exact h.dropLast
  case isFalse habove =>
    split
    case isTrue hreal =>
      intro other hother
      rcases mem_append.mp hother with hold | hnew
      · exact h other hold
      · rw [mem_singleton.mp hnew]
        exact ⟨hreal.1, hreal.2, habove, hslash⟩
    case isFalse => exact h

theorem isPath_foldl {pieces segments : List (List UInt8)} (h : IsPath segments)
    (hslash : ∀ piece ∈ pieces, 0x2f ∉ piece) :
  IsPath (pieces.foldl pushSegment segments)
  := by
  induction pieces generalizing segments with
  | nil => exact h
  | cons piece pieces ih =>
    rw [forall_mem_cons] at hslash
    exact ih (isPath_pushSegment h hslash.1) hslash.2

/-- What is normalized is a path. -/
theorem exists_pathOf_normalizePath (path : List UInt8) :
  ∃ segments, IsPath segments ∧ normalizePath path = pathOf segments
  := by
  have hpath : IsPath ((path.splitOn 0x2f).foldl pushSegment []) :=
    isPath_foldl (forall_mem_nil _) fun piece => slash_notMem_of_mem_splitOn
  exact ⟨_, hpath, join_eq_pathOf hpath⟩

/-- A reference is resolved to a path of the archive. -/
theorem exists_pathOf_resolveEpubHref (chapterHref reference : List UInt8) :
  ∃ segments, IsPath segments ∧ resolveEpubHref chapterHref reference = pathOf segments
  := by
  simp only [resolveEpubHref]
  split
  case isTrue => exact ⟨[], forall_mem_nil _, rfl⟩
  case isFalse =>
    split
    case isTrue => exact exists_pathOf_normalizePath _
    case isFalse => exact exists_pathOf_normalizePath _

/-! ### Walking along a path -/

/-- The segments that are walked along: the others are left out. -/
def isReal (segment : List UInt8) : Bool :=
  segment != [] && segment != kHere

theorem pushSegment_of_not_isReal (h : isReal segment = false) (segments : List (List UInt8)) :
  pushSegment segments segment = segments
  := by
  have hnot : segment = [] ∨ segment = kHere := by
    by_cases hnil : segment = []
    · exact .inl hnil
    · exact .inr (by simpa [isReal, hnil] using h)
  rcases hnot with rfl | rfl
  · rfl
  · rfl

theorem foldl_pushSegment_filter (pieces segments : List (List UInt8)) :
  pieces.foldl pushSegment segments = (pieces.filter isReal).foldl pushSegment segments
  := by
  induction pieces generalizing segments with
  | nil => rfl
  | cons piece pieces ih =>
    cases hreal : isReal piece with
    | true =>
      rw [filter_cons_of_pos hreal]
      exact ih _
    | false =>
      rw [filter_cons_of_neg (by simp [hreal]), foldl_cons,
        pushSegment_of_not_isReal hreal]
      exact ih _

theorem pushSegment_of_isSegment (h : IsSegment segment) (segments : List (List UInt8)) :
  pushSegment segments segment = segments ++ [segment]
  := by rw [pushSegment, if_neg h.ne_above, if_pos ⟨h.ne_nil, h.ne_here⟩]

theorem foldl_pushSegment_of_isPath {path : List (List UInt8)} (h : IsPath path)
    (segments : List (List UInt8)) :
  path.foldl pushSegment segments = segments ++ path
  := by
  induction path generalizing segments with
  | nil => exact (append_nil _).symm
  | cons segment path ih =>
    obtain ⟨hsegment, hpath⟩ := forall_mem_cons.mp h
    rw [foldl_cons, pushSegment_of_isSegment hsegment, ih hpath, append_assoc]
    rfl

/-- Climbing ends at the root. -/
theorem foldl_pushSegment_climb (climbs : ℕ) (segments : List (List UInt8)) :
  (List.replicate climbs kAbove).foldl pushSegment segments =
    segments.take (segments.length - climbs)
  := by
  induction climbs generalizing segments with
  | zero => simp
  | succ climbs ih =>
    rw [replicate_succ, foldl_cons]
    have hstep : pushSegment segments kAbove = segments.dropLast := rfl
    rw [hstep, ih, dropLast_eq_take, take_take, length_take]
    congr 1
    omega

/-- The directory of a path. -/
theorem baseDir_pathOf (h : IsPath segments) :
  baseDir (pathOf segments) =
    if segments.dropLast = [] then [] else pathOf segments.dropLast ++ [0x2f]
  := by
  have hlast : ∀ segment : List UInt8, 0x2f ∉ segment →
      segment.rdropWhile (· != 0x2f) = [] := by
    intro segment hslash
    rw [rdropWhile_eq_nil_iff]
    intro byte hbyte
    rw [bne_iff_ne]
    rintro rfl
    exact hslash hbyte
  induction segments using reverseRecOn with
  | nil => rfl
  | append_singleton segments segment _ =>
    have hslash := (h segment (by simp)).slash
    rw [dropLast_concat]
    split
    case isTrue hnil =>
      rw [hnil]
      simpa [baseDir, pathOf] using hlast segment hslash
    case isFalse hne =>
      have hdrop : ∀ text : List UInt8, baseDir (text ++ 0x2f :: segment) = text ++ [0x2f] := by
        intro text
        have hrest := hlast segment hslash
        rw [rdropWhile, reverse_eq_nil_iff] at hrest
        rw [baseDir, rdropWhile, reverse_append, reverse_cons, append_assoc,
          dropWhile_append, hrest]
        simp
      rw [pathOf_concat hne, hdrop]

/-- The segments of a path of pieces are the pieces, behind those of the directory. -/
theorem splitOn_baseDir {chapter pieces : List (List UInt8)} (hchapter : IsPath chapter)
    (hne : pieces ≠ []) (hslash : ∀ piece ∈ pieces, 0x2f ∉ piece) :
  (baseDir (pathOf chapter) ++ pathOf pieces).splitOn 0x2f = chapter.dropLast ++ pieces
  := by
  have hpieces : (pathOf pieces).splitOn 0x2f = pieces :=
    splitOn_intercalate _ hslash hne
  rw [baseDir_pathOf hchapter]
  split
  case isTrue hnil =>
    rw [hnil]
    exact hpieces
  case isFalse hdir =>
    have hdirs : (pathOf chapter.dropLast).splitOn 0x2f = chapter.dropLast :=
      splitOn_intercalate _ hchapter.dropLast.slash hdir
    rw [append_assoc, singleton_append, splitOn_append_cons_self, hdirs, hpieces]

/-! ### Relative references -/

/-- The bytes that may be left as they are, the unreserved ones. -/
def isUnreserved (byte : UInt8) : Bool :=
  isAlphanumeric byte || byte = 0x2d || byte = 0x2e || byte = 0x5f || byte = 0x7e

/-- The spellings of a name in a reference: whatever is not unreserved is percent-encoded. -/
inductive Spells : List UInt8 → List UInt8 → Prop
  | nil : Spells [] []
  | kept {byte : UInt8} {name text : List UInt8} (hbyte : isUnreserved byte)
      (rest : Spells name text) : Spells (byte :: name) (byte :: text)
  | encoded {byte high low : UInt8} {name text : List UInt8}
      (hhigh : hexValue high = some (byte.toNat / 16))
      (hlow : hexValue low = some (byte.toNat % 16))
      (rest : Spells name text) : Spells (byte :: name) (0x25 :: high :: low :: text)

/-- A relative reference from a chapter to a target: it climbs to a common directory, names the
rest of the target, and has empty segments, segments of the directory itself and a fragment or a
query at will. -/
structure RelativeReference (chapter target : List (List UInt8)) where
  climbs : ℕ
  rest : List (List UInt8)
  spelled : List (List UInt8)
  segments : List (List UInt8)
  suffix : List UInt8
  target_eq : target = chapter.dropLast.take (chapter.dropLast.length - climbs) ++ rest
  spells : List.Forall₂ Spells rest spelled
  inserted : segments.filter isReal = List.replicate climbs kAbove ++ spelled
  first : ∀ segment ∈ segments.head?, isReal segment
  cut : ∀ byte ∈ suffix.head?, byte = 0x23 ∨ byte = 0x3f

/-- The text of a reference. -/
def RelativeReference.text {chapter target : List (List UInt8)}
    (reference : RelativeReference chapter target) : List UInt8 :=
  pathOf reference.segments ++ reference.suffix

/-! ### Decoding -/

/-- A slash is no part of an encoded byte. -/
theorem decode_append_slash (text rest : List UInt8) :
  decode (text ++ 0x2f :: rest) = decode text ++ 0x2f :: decode rest
  := by
  induction text using Percent.decode.induct with
  | case1 =>
    rw [Percent.decode_nil]
    exact Percent.decode_none (Percent.octet_of_ne (by decide) rest)
  | case2 byte after value hvalue ih =>
    obtain ⟨high, low, more, heq, a, b, ha, hb, -⟩ := Percent.octet_eq_some_iff.mp hvalue
    obtain ⟨rfl, rfl⟩ := cons.inj heq
    have hwhole : octet (0x25 :: high :: low :: (more ++ 0x2f :: rest)) = some value := by
      rw [← hvalue]
      rfl
    rw [Percent.decode_some hvalue]
    exact (Percent.decode_some hwhole).trans (congrArg (value :: ·) ih)
  | case3 byte after hnone ih =>
    have hwhole : octet (byte :: (after ++ 0x2f :: rest)) = none := by
      rw [Option.eq_none_iff_forall_ne_some]
      intro value hvalue
      obtain ⟨high, low, more, heq, a, b, ha, hb, hab⟩ := Percent.octet_eq_some_iff.mp hvalue
      obtain ⟨rfl, hafter⟩ := cons.inj heq
      match after, hafter with
      | [], hafter =>
        obtain ⟨rfl, -⟩ := cons.inj hafter
        cases ha
      | [_], hafter =>
        obtain ⟨-, hlow⟩ := cons.inj hafter
        obtain ⟨rfl, -⟩ := cons.inj hlow
        cases hb
      | _ :: _ :: after, hafter =>
        obtain ⟨rfl, hlow⟩ := cons.inj hafter
        obtain ⟨rfl, -⟩ := cons.inj hlow
        have hsome := Percent.octet_eq_some_iff.mpr ⟨_, _, after, rfl, a, b, ha, hb, hab⟩
        rw [hnone] at hsome
        cases hsome
    rw [Percent.decode_none hnone]
    exact (Percent.decode_none hwhole).trans (congrArg (byte :: ·) ih)

theorem decode_pathOf (segments : List (List UInt8)) :
  decode (pathOf segments) = pathOf (segments.map decode)
  := by
  induction segments with
  | nil => exact Percent.decode_nil
  | cons first rest ih =>
    cases rest with
    | nil => simp [pathOf]
    | cons second rest =>
      rw [pathOf_cons_cons, decode_append_slash, ih]
      exact (pathOf_cons_cons _ _ _).symm

theorem Spells.decode_eq {name text : List UInt8} (h : Spells name text) :
  decode text = name
  := by
  induction h with
  | nil => exact Percent.decode_nil
  | @kept byte name text hbyte rest ih =>
    have hne : byte ≠ 0x25 := by
      rintro rfl
      revert hbyte
      decide
    rw [Percent.decode_none (Percent.octet_of_ne hne text), ih]
  | @encoded byte high low name text hhigh hlow rest ih =>
    have hvalue : byte = .ofNat (byte.toNat / 16 * 16 + byte.toNat % 16) := by
      rw [Nat.div_add_mod', UInt8.ofNat_toNat]
    have hoctet := Percent.octet_eq_some_iff.mpr ⟨high, low, text, rfl, _, _, hhigh, hlow, hvalue⟩
    rw [Percent.decode_some hoctet]
    exact congrArg (byte :: ·) ih

theorem exists_name {names spelled : List (List UInt8)} (h : List.Forall₂ Spells names spelled)
    {text : List UInt8} (htext : text ∈ spelled) :
  ∃ name ∈ names, Spells name text
  := by
  induction h with
  | nil => cases htext
  | cons hspells _ ih =>
    rcases mem_cons.mp htext with rfl | hrest
    · exact ⟨_, mem_cons_self, hspells⟩
    · obtain ⟨name, hname, htext⟩ := ih hrest
      exact ⟨name, mem_cons_of_mem _ hname, htext⟩

theorem map_decode_spelled {names spelled : List (List UInt8)}
    (h : List.Forall₂ Spells names spelled) :
  spelled.map decode = names
  := by
  induction h with
  | nil => rfl
  | cons hspells _ ih => rw [map_cons, hspells.decode_eq, ih]

/-- A byte that stands for no part of a reference but itself. -/
def isPlain (byte : UInt8) : Bool :=
  byte != 0x23 && byte != 0x3f && byte != 0x3a

theorem isPlain_iff {byte : UInt8} :
  isPlain byte ↔ byte ≠ 0x23 ∧ byte ≠ 0x3f ∧ byte ≠ 0x3a
  := by simp [isPlain, and_assoc]

theorem isPlain_of_hexValue {byte : UInt8} {value : ℕ} (h : hexValue byte = some value) :
  isPlain byte
  := by
  rw [isPlain_iff]
  refine ⟨?_, ?_, ?_⟩
  all_goals
    rintro rfl
    cases h

theorem isPlain_of_isUnreserved {byte : UInt8} (h : isUnreserved byte) :
  isPlain byte
  := by
  rw [isPlain_iff]
  refine ⟨?_, ?_, ?_⟩
  all_goals
    rintro rfl
    cases h

theorem Spells.plain {name text : List UInt8} (h : Spells name text) :
  ∀ byte ∈ text, isPlain byte
  := by
  induction h with
  | nil => exact forall_mem_nil _
  | kept hbyte _ ih => exact forall_mem_cons.mpr ⟨isPlain_of_isUnreserved hbyte, ih⟩
  | encoded hhigh hlow _ ih =>
    rw [forall_mem_cons, forall_mem_cons, forall_mem_cons]
    exact ⟨rfl, isPlain_of_hexValue hhigh, isPlain_of_hexValue hlow, ih⟩

theorem mem_pathOf {byte : UInt8} (h : byte ∈ pathOf segments) :
  byte = 0x2f ∨ ∃ segment ∈ segments, byte ∈ segment
  := by
  induction segments with
  | nil => cases h
  | cons first rest ih =>
    cases rest with
    | nil => exact .inr ⟨first, mem_cons_self, by simpa [pathOf] using h⟩
    | cons second rest =>
      rw [pathOf_cons_cons, mem_append, mem_cons] at h
      rcases h with hfirst | hslash | hrest
      · exact .inr ⟨first, mem_cons_self, hfirst⟩
      · exact .inl hslash
      · rcases ih hrest with hslash | ⟨segment, hsegment, hbyte⟩
        · exact .inl hslash
        · exact .inr ⟨segment, mem_cons_of_mem _ hsegment, hbyte⟩

theorem hasScheme_of_plain {text : List UInt8} (h : ∀ byte ∈ text, isPlain byte) :
  hasScheme text = false
  := by
  have hloop : ∀ text : List UInt8, (∀ byte ∈ text, isPlain byte) → colonEnds text = false := by
    intro text htext
    induction text with
    | nil => rfl
    | cons byte rest ih =>
      obtain ⟨hbyte, hrest⟩ := forall_mem_cons.mp htext
      rw [colonEnds, if_neg (isPlain_iff.mp hbyte).2.2]
      split
      case isTrue => rfl
      case isFalse => exact ih hrest
  cases text with
  | nil => rfl
  | cons first rest =>
    rw [hasScheme]
    split
    case isTrue => rfl
    case isFalse => exact hloop _ h

/-! ### Resolving relative references -/

section

variable {chapter target : List (List UInt8)} (reference : RelativeReference chapter target)

theorem RelativeReference.isPath_rest (htarget : IsPath target) :
  IsPath reference.rest
  := by
  intro segment hsegment
  apply htarget
  rw [reference.target_eq]
  exact mem_append_right _ hsegment

theorem RelativeReference.decode_spelled :
  reference.spelled.map decode = reference.rest
  := map_decode_spelled reference.spells

/-- A segment of a reference is left out, or climbs, or spells a name. -/
theorem RelativeReference.segment_cases (h : segment ∈ reference.segments) :
  segment = [] ∨ segment = kHere ∨ segment = kAbove ∨ segment ∈ reference.spelled
  := by
  cases hreal : isReal segment with
  | false =>
    by_cases hnil : segment = []
    · exact .inl hnil
    · exact .inr (.inl (by simpa [isReal, hnil] using hreal))
  | true =>
    have hkept := mem_filter.mpr ⟨h, hreal⟩
    rw [reference.inserted, mem_append] at hkept
    rcases hkept with hclimb | hspelled
    · exact .inr (.inr (.inl (eq_of_mem_replicate hclimb)))
    · exact .inr (.inr (.inr hspelled))

theorem RelativeReference.plain (reference : RelativeReference chapter target) :
  ∀ byte ∈ pathOf reference.segments, isPlain byte
  := by
  intro byte hbyte
  rcases mem_pathOf hbyte with rfl | ⟨segment, hsegment, hin⟩
  · rfl
  · rcases reference.segment_cases hsegment with rfl | rfl | rfl | hspelled
    · cases hin
    · rw [mem_singleton.mp hin]
      rfl
    · have heq : byte = 0x2e := by simpa [kAbove] using hin
      rw [heq]
      rfl
    · obtain ⟨name, -, hname⟩ := exists_name reference.spells hspelled
      exact hname.plain byte hin

/-- Decoding keeps what is left out and what is not, and makes no slash. -/
theorem RelativeReference.decode_segment (htarget : IsPath target)
    (h : segment ∈ reference.segments) :
  0x2f ∉ decode segment ∧ isReal (decode segment) = isReal segment
  := by
  have hnil : decode [] = [] := Percent.decode_nil
  have hhere : decode kHere = kHere := (Spells.kept rfl .nil : Spells kHere kHere).decode_eq
  have habove : decode kAbove = kAbove :=
    (Spells.kept rfl (.kept rfl .nil) : Spells kAbove kAbove).decode_eq
  rcases reference.segment_cases h with rfl | rfl | rfl | hspelled
  · rw [hnil]
    exact ⟨by decide, rfl⟩
  · rw [hhere]
    exact ⟨by decide, rfl⟩
  · rw [habove]
    exact ⟨by decide, rfl⟩
  · obtain ⟨name, hname, hspells⟩ := exists_name reference.spells hspelled
    have hsegment := reference.isPath_rest htarget name hname
    have hreal : isReal segment := by
      have hkept : segment ∈ reference.segments.filter isReal := by
        rw [reference.inserted]
        exact mem_append_right _ hspelled
      exact (mem_filter.mp hkept).2
    rw [hspells.decode_eq, hreal]
    use hsegment.slash
    simp [isReal, hsegment.ne_nil, hsegment.ne_here]

/-- What is walked along of the decoded reference climbs and names the rest of the target. -/
theorem RelativeReference.filter_decoded (htarget : IsPath target) :
  (reference.segments.map decode).filter isReal =
    List.replicate reference.climbs kAbove ++ reference.rest
  := by
  have habove : decode kAbove = kAbove :=
    (Spells.kept rfl (.kept rfl .nil) : Spells kAbove kAbove).decode_eq
  have hfilter : reference.segments.filter (isReal ∘ decode) =
      reference.segments.filter isReal := by
    apply filter_congr
    intro segment hsegment
    exact (reference.decode_segment htarget hsegment).2
  rw [filter_map, hfilter, reference.inserted, map_append, map_replicate, habove,
    reference.decode_spelled]

/-- Walking along a relative reference from the directory of the chapter leads to the target. -/
theorem RelativeReference.normalizePath_eq (hchapter : IsPath chapter) (htarget : IsPath target)
    (hne : reference.segments ≠ []) :
  normalizePath (baseDir (pathOf chapter) ++ pathOf (reference.segments.map decode)) =
    pathOf target
  := by
  have hslash : ∀ piece ∈ reference.segments.map decode, 0x2f ∉ piece := by
    rw [forall_mem_map]
    intro segment hsegment
    exact (reference.decode_segment htarget hsegment).1
  have hstack : (chapter.dropLast ++ reference.segments.map decode).foldl pushSegment [] =
      target := by
    rw [foldl_append, foldl_pushSegment_of_isPath hchapter.dropLast, nil_append,
      foldl_pushSegment_filter, reference.filter_decoded htarget, foldl_append,
      foldl_pushSegment_climb, foldl_pushSegment_of_isPath (reference.isPath_rest htarget),
      ← reference.target_eq]
  rw [normalizePath, splitOn_baseDir hchapter (by simpa using hne) hslash, hstack,
    join_eq_pathOf htarget]

/-- The reference up to its fragment or query. -/
theorem RelativeReference.takeWhile_text :
  (reference.text.takeWhile fun byte => byte != 0x23 && byte != 0x3f) =
    pathOf reference.segments
  := by
  have hplain : ∀ byte ∈ pathOf reference.segments, (byte != 0x23 && byte != 0x3f) = true := by
    intro byte hbyte
    have hplain := isPlain_iff.mp (reference.plain byte hbyte)
    simp [hplain.1, hplain.2.1]
  rw [RelativeReference.text, takeWhile_append_of_pos hplain]
  cases hsuffix : reference.suffix with
  | nil => simp
  | cons byte rest =>
    have hcut := reference.cut byte (by simp [hsuffix])
    rw [takeWhile_cons_of_neg, append_nil]
    rcases hcut with rfl | rfl
    · decide
    · decide

/-- The decoded reference starts with a byte of its first segment. -/
theorem RelativeReference.decoded_start (htarget : IsPath target) (hne : reference.segments ≠ []) :
  pathOf reference.segments ≠ [] ∧
    (pathOf (reference.segments.map decode)).head? ≠ some 0x2f
  := by
  cases hsegments : reference.segments with
  | nil => exact absurd hsegments hne
  | cons first rest =>
    have hmem : first ∈ reference.segments := by
      rw [hsegments]
      exact mem_cons_self
    have hreal := reference.first first (by simp [hsegments])
    obtain ⟨hslash, hdecoded⟩ := reference.decode_segment htarget hmem
    rw [hreal] at hdecoded
    have hnil : ∀ {segment : List UInt8}, isReal segment → segment ≠ [] := by
      rintro segment h rfl
      cases h
    have hpath : ∀ (segment : List UInt8) more, segment ≠ [] →
        (pathOf (segment :: more)).head? = segment.head? := by
      intro segment more hsegment
      cases more with
      | nil => simp [pathOf]
      | cons second more =>
        rw [pathOf_cons_cons, head?_append_of_ne_nil _ hsegment]
    constructor
    · intro hempty
      have hhead := hpath first rest (hnil hreal)
      rw [hempty] at hhead
      exact hnil hreal (head?_eq_none_iff.mp hhead.symm)
    · rw [map_cons, hpath _ _ (hnil hdecoded)]
      intro hhead
      exact hslash (mem_of_mem_head? hhead)

/-- A relative reference with a step in it is resolved to its target. -/
theorem RelativeReference.resolve_eq (hchapter : IsPath chapter) (htarget : IsPath target)
    (hne : reference.segments ≠ []) :
  resolveEpubHref (pathOf chapter) reference.text = pathOf target
  := by
  obtain ⟨hstart, hhead⟩ := reference.decoded_start htarget hne
  have hgo : ¬(pathOf reference.segments = [] ∨ hasScheme (pathOf reference.segments)) := by
    rw [hasScheme_of_plain reference.plain, not_or]
    exact ⟨hstart, Bool.false_ne_true⟩
  simp only [resolveEpubHref]
  rw [reference.takeWhile_text, if_neg hgo, decode_pathOf, if_neg hhead,
    reference.normalizePath_eq hchapter htarget hne]

/-- What a reference is resolved to is a path of the archive, and a relative reference with a step
in it is resolved to its target. -/
theorem resolveEpubHref_inverts :
  (∀ chapterHref reference, ∃ segments, IsPath segments ∧
    resolveEpubHref chapterHref reference = pathOf segments) ∧
  ∀ chapter target, IsPath chapter → IsPath target →
    ∀ reference : RelativeReference chapter target, reference.segments ≠ [] →
      resolveEpubHref (pathOf chapter) reference.text = pathOf target
  := by
  use exists_pathOf_resolveEpubHref
  intro chapter target hchapter htarget reference hne
  exact reference.resolve_eq hchapter htarget hne

end

/-- The reference `../i%20j/.#k` from the file `o/t/c` to `o/i j`. -/
def climbingReference : RelativeReference [[0x6f], [0x74], [0x63]] [[0x6f], [0x69, 0x20, 0x6a]] where
  climbs := 1
  rest := [[0x69, 0x20, 0x6a]]
  spelled := [[0x69, 0x25, 0x32, 0x30, 0x6a]]
  segments := [kAbove, [0x69, 0x25, 0x32, 0x30, 0x6a], kHere]
  suffix := [0x23, 0x6b]
  target_eq := rfl
  spells := .cons (.kept rfl (.encoded rfl rfl (.kept rfl .nil))) .nil
  inserted := rfl
  first := by decide
  cut := by
    intro byte h
    obtain rfl : 0x23 = byte := Option.some.inj h
    exact .inl rfl

theorem resolveEpubHref_inverts_climbing :
  resolveEpubHref (pathOf [[0x6f], [0x74], [0x63]]) climbingReference.text =
    pathOf [[0x6f], [0x69, 0x20, 0x6a]]
  := by
  have hsegment : ∀ segment : List UInt8, segment ≠ [] → segment ≠ kHere → segment ≠ kAbove →
      0x2f ∉ segment → IsSegment segment := fun _ hnil hhere habove hslash =>
    ⟨hnil, hhere, habove, hslash⟩
  apply resolveEpubHref_inverts.2 _ _ _ _ climbingReference (List.cons_ne_nil _ _)
  · intro segment h
    simp only [List.mem_cons, List.not_mem_nil, or_false] at h
    rcases h with rfl | rfl | rfl
    all_goals exact hsegment _ (by decide) (by decide) (by decide) (by decide)
  · intro segment h
    simp only [List.mem_cons, List.not_mem_nil, or_false] at h
    rcases h with rfl | rfl
    all_goals exact hsegment _ (by decide) (by decide) (by decide) (by decide)

/-- The reference without a step from the file `a/b` to its directory. -/
def emptyReference : RelativeReference [[0x61], [0x62]] [[0x61]] where
  climbs := 0
  rest := []
  spelled := []
  segments := []
  suffix := []
  target_eq := rfl
  spells := .nil
  inserted := rfl
  first := by decide
  cut := by
    intro byte h
    cases h

/-- A reference without a step names nothing, not the directory of the chapter either. -/
theorem resolveEpubHref_empty :
  ¬∀ chapter target, IsPath chapter → IsPath target →
    ∀ reference : RelativeReference chapter target,
      resolveEpubHref (pathOf chapter) reference.text = pathOf target
  := by
  intro h
  have hletter : ∀ byte : UInt8, byte ≠ 0x2e → byte ≠ 0x2f → IsSegment [byte] := by
    intro byte hdot hslash
    constructor
    case ne_nil => exact List.cons_ne_nil _ _
    case ne_here => exact fun heq => hdot (List.cons.inj heq).1
    case ne_above => exact fun heq => hdot (List.cons.inj heq).1
    case slash => simpa using Ne.symm hslash
  have hchapter : IsPath [[0x61], [0x62]] := by
    rw [IsPath, List.forall_mem_cons, List.forall_mem_singleton]
    exact ⟨hletter _ (by decide) (by decide), hletter _ (by decide) (by decide)⟩
  have htarget : IsPath [[0x61]] := by
    rw [IsPath, List.forall_mem_singleton]
    exact hletter _ (by decide) (by decide)
  have heq := h _ _ hchapter htarget emptyReference
  revert heq
  rw [show emptyReference.text = [] from rfl]
  decide

end GRParse.Epub
