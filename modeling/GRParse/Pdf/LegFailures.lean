import Mathlib.Data.List.Induction
import Mathlib.Data.Multiset.MapFold

/-!
# What the failures of several backends add up to

A backend that is asked for a page refuses the document or fails for a reason of the transport.
When every backend that was asked failed, the page fails once: as a refusal if any backend
refused, else for the reason that all failures have, else as an outage.  The order in which the
failures are recorded does not matter, but for the message, which is the last one's.
-/

namespace GRParse.Pdf

open List

inductive PdfBackendFailure where
  | unavailable
  | deadlineExceeded
  | cancelled
  | resourceExhausted
  deriving DecidableEq

/-- An `InvalidDocument`, which refuses the document, or a `PdfBackendUnavailable`, which has a
reason. -/
structure Failure where
  what : String
  reason : Option PdfBackendFailure

/-- `cancelled`, of an error. -/
def Failure.isCancelled (error : Failure) : Bool :=
  error.reason = some .cancelled

/-- A failure that says something and is no cancel. -/
def Failure.Plain (error : Failure) : Prop :=
  error.what ≠ "" ∧ error.isCancelled = false

/-- `LegFailures`. -/
structure LegFailures where
  lastError : String := ""
  refused : Bool := false
  cancelled : Bool := false
  reason : Option PdfBackendFailure := none

namespace LegFailures

/-- A reason beside the one that is recorded. -/
def joinReason (recorded : Option PdfBackendFailure) (reason : PdfBackendFailure) :
    Option PdfBackendFailure :=
  match recorded with
  | none => some reason
  | some first => if first ≠ reason then some .unavailable else some first

/-- `record`. -/
def record (failures : LegFailures) (error : Failure) : LegFailures :=
  let failures := { failures with lastError := error.what }
  match error.reason with
  | none => { failures with refused := true }
  | some .cancelled => { failures with cancelled := true }
  | some reason => { failures with reason := joinReason failures.reason reason }

/-- `any`. -/
def any (failures : LegFailures) : Bool :=
  failures.lastError ≠ ""

/-- `raise`: what is thrown. -/
def raise (failures : LegFailures) : Failure :=
  if failures.cancelled then ⟨failures.lastError, some .cancelled⟩
  else if !failures.refused && failures.reason.isSome then
    ⟨failures.lastError, failures.reason⟩
  else ⟨failures.lastError, none⟩

end LegFailures

/-! ### The kinds of failures -/

/-- What failures of the given kinds are together, whatever their order.  A kind is a reason of
the transport, or none for a refusal. -/
def jointKind (kinds : Multiset (Option PdfBackendFailure)) : Option PdfBackendFailure :=
  if none ∈ kinds then none
  else
    [.unavailable, .deadlineExceeded, .cancelled, .resourceExhausted].find?
      (fun reason => ∀ kind ∈ kinds, kind = some reason) <|> some .unavailable

/-- A refusal among the failures is one of the document. -/
theorem jointKind_refused {kinds : Multiset (Option PdfBackendFailure)} (h : none ∈ kinds) :
  jointKind kinds = none
  := if_pos h

/-- A reason that all failures have is kept. -/
theorem jointKind_common {kinds : Multiset (Option PdfBackendFailure)}
    {reason : PdfBackendFailure} (hne : kinds ≠ 0) (h : ∀ kind ∈ kinds, kind = some reason) :
  jointKind kinds = some reason
  := by
  obtain ⟨first, hfirst⟩ := Multiset.exists_mem_of_ne_zero hne
  have hsame : ∀ other, (∀ kind ∈ kinds, kind = some other) ↔ other = reason := by
    intro other
    constructor
    · intro hother
      exact Option.some.inj ((hother first hfirst).symm.trans (h first hfirst))
    · rintro rfl
      exact h
  have hnone : none ∉ kinds := fun hmem => by cases h none hmem
  rw [jointKind, if_neg hnone]
  simp only [hsame]
  cases reason <;> rfl

/-- Several reasons are an outage. -/
theorem jointKind_mixed {kinds : Multiset (Option PdfBackendFailure)} (hnone : none ∉ kinds)
    (h : ∀ reason, ¬ ∀ kind ∈ kinds, kind = some reason) :
  jointKind kinds = some .unavailable
  := by
  rw [jointKind, if_neg hnone]
  simp only [h]
  rfl

/-! ### What is recorded -/

/-- The reason that the transport failures have so far. -/
def commonReason : List PdfBackendFailure → Option PdfBackendFailure
  | [] => none
  | first :: rest => if ∀ reason ∈ rest, reason = first then some first else some .unavailable

theorem commonReason_concat (reasons : List PdfBackendFailure) (reason : PdfBackendFailure) :
  commonReason (reasons ++ [reason]) = LegFailures.joinReason (commonReason reasons) reason
  := by
  cases reasons with
  | nil => rfl
  | cons first rest =>
    rw [cons_append, commonReason, commonReason]
    by_cases hrest : ∀ other ∈ rest, other = first
    · rw [if_pos hrest]
      by_cases hsame : first = reason
      · subst hsame
        rw [if_pos (forall_mem_append.mpr ⟨hrest, by simp⟩)]
        simp [LegFailures.joinReason]
      · rw [if_neg (by simp [Ne.symm hsame])]
        simp [LegFailures.joinReason, hsame]
    · rw [if_neg hrest, if_neg fun h => hrest fun other hother => h other (by simp [hother])]
      cases reason <;> rfl

/-- The failures that were recorded one after the other. -/
def recorded (errors : List Failure) : LegFailures :=
  errors.foldl .record {}

theorem recorded_concat (errors : List Failure) (error : Failure) :
  recorded (errors ++ [error]) = (recorded errors).record error
  := by
  rw [recorded, recorded, foldl_append]
  rfl

/-- What is known once some failures are recorded, none of them a cancel. -/
structure Tells (errors : List Failure) (failures : LegFailures) : Prop where
  lastError : failures.lastError = (errors.getLast?.map Failure.what).getD ""
  refused : failures.refused = true ↔ none ∈ errors.map Failure.reason
  cancelled : failures.cancelled = false
  reason : failures.reason = commonReason (errors.filterMap Failure.reason)

theorem tells_recorded {errors : List Failure} (h : ∀ error ∈ errors, error.Plain) :
  Tells errors (recorded errors)
  := by
  induction errors using reverseRecOn with
  | nil => exact ⟨rfl, by simp [recorded], rfl, rfl⟩
  | append_singleton errors error ih =>
    have htells := ih fun other hother => h other (by simp [hother])
    have hplain := (h error (by simp)).2
    rw [recorded_concat, LegFailures.record]
    cases hreason : error.reason with
    | none =>
      constructor
      case lastError => simp
      case refused => simp [hreason]
      case cancelled => exact htells.cancelled
      case reason => simpa [hreason] using htells.reason
    | some reason =>
      have hfilter : (errors ++ [error]).filterMap Failure.reason
          = errors.filterMap Failure.reason ++ [reason] := by simp [hreason]
      have hjoined : Tells (errors ++ [error])
          { recorded errors with
            lastError := error.what
            reason := LegFailures.joinReason (recorded errors).reason reason } := by
        constructor
        case lastError => simp
        case refused => simpa [hreason] using htells.refused
        case cancelled => exact htells.cancelled
        case reason => rw [hfilter, commonReason_concat, htells.reason]
      cases reason with
      | cancelled => simp [Failure.isCancelled, hreason] at hplain
      | unavailable => exact hjoined
      | deadlineExceeded => exact hjoined
      | resourceExhausted => exact hjoined

/-- Failures that say something are noticed. -/
theorem any_recorded {errors : List Failure} (h : ∀ error ∈ errors, error.Plain) :
  (recorded errors).any = !errors.isEmpty
  := by
  rw [LegFailures.any, (tells_recorded h).lastError]
  cases hlast : errors.getLast? with
  | none =>
    rw [getLast?_eq_none_iff.mp hlast]
    rfl
  | some error =>
    have hmem := mem_of_getLast? hlast
    have hne : errors ≠ [] := ne_nil_of_mem hmem
    simp [(h error hmem).1, hne]

/-- What is thrown depends on the kinds of the failures, not on their order. -/
theorem reason_raise_recorded {errors : List Failure} (hne : errors ≠ [])
    (h : ∀ error ∈ errors, error.Plain) :
  (recorded errors).raise.reason = jointKind (errors.map Failure.reason)
  := by
  have htells := tells_recorded h
  rw [LegFailures.raise, htells.cancelled]
  by_cases hrefused : none ∈ errors.map Failure.reason
  · rw [jointKind_refused (by simpa using hrefused), htells.refused.mpr hrefused]
    rfl
  · have hnot : (recorded errors).refused = false := by
      simpa using mt htells.refused.mp hrefused
    have hreasons : errors.map Failure.reason
        = (errors.filterMap Failure.reason).map some := by
      rw [map_filterMap]
      have hsome : ∀ error ∈ errors, ∃ reason, error.reason = some reason := by
        intro error herror
        apply Option.ne_none_iff_exists'.mp
        exact fun hnone => hrefused (mem_map.mpr ⟨error, herror, hnone⟩)
      rw [← filterMap_eq_map]
      apply filterMap_congr
      intro error herror
      obtain ⟨reason, hreason⟩ := hsome error herror
      simp [hreason]
    rw [hnot, htells.reason, hreasons]
    cases hkinds : errors.filterMap Failure.reason with
    | nil =>
      rw [hkinds] at hreasons
      exact absurd (map_eq_nil_iff.mp hreasons) hne
    | cons first rest =>
      rw [commonReason]
      by_cases hsame : ∀ reason ∈ rest, reason = first
      · rw [if_pos hsame, @jointKind_common _ first (by simp) (by simpa using hsame)]
        rfl
      · rw [if_neg hsame, jointKind_mixed (by simp)]
        · rfl
        · intro reason hall
          have hfirst : first = reason := by simpa using hall (some first) (by simp)
          apply hsame
          intro other hother
          rw [hfirst]
          simpa using hall (some other) (by simp [hother])

end GRParse.Pdf
