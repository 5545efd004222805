import GRParse.Lib.ThreadPool
import GRParse.Pdf.LegFailures
import Mathlib.Tactic.Cases

/-!
# The consensus page source

Several backends, the legs, read one document.  Any number of threads ask the source for the text
or the raster of a page.  A text is asked of all legs that have the page and were not dropped, at
once; a raster is asked of one leg after the other until one answers.  What every leg did is
recorded under the mutex of the breaker, one leg at a time, while other calls go on, and a leg
that failed three times since it last answered is dropped.

What happens under a mutex is one operation, and so is a leg's answer.  The vote over the texts
that were read is left out: a call returns all of them.
-/

namespace GRParse.Pdf

open ThreadPool List Option

/-! ### Legs -/

/-- A leg that loaded the document.  `history` is what was recorded of it: whether it answered,
every time it was asked. -/
structure Entry where
  pages : ℤ
  consecutiveFailures : ℕ := 0
  disabled : Bool := false
  history : List Bool := []

def kCircuitBreakerFailures : ℕ := 3

/-- `record_leg_success`. -/
def recordLegSuccess (entry : Entry) : Entry :=
  { entry with consecutiveFailures := 0, history := entry.history ++ [true] }

/-- `record_leg_failure`. -/
def recordLegFailure (entry : Entry) : Entry :=
  let failures := entry.consecutiveFailures + 1
  { entry with
    consecutiveFailures := failures
    disabled := if entry.disabled ∨ failures < kCircuitBreakerFailures then entry.disabled else true
    history := entry.history ++ [false] }

/-! ### Calls -/

inductive Request where
  | extract (page : ℤ)
  | render (page : ℤ)

def Request.page : Request → ℤ
  | .extract page | .render page => page

/-- A call, and the legs that were dropped when it started. -/
structure CallStart where
  request : Request
  dropped : List ℕ

/-- What a leg did when it was asked: it answered, or it failed. -/
abbrev Outcome (A : Type) := ℕ × Except Failure A

/-- What a call knows of the legs it asked. -/
structure Tally (A : Type) where
  asked : List (Outcome A) := []
  failures : LegFailures := {}
  anyAnswered : Bool := false
  candidates : List (ℕ × A) := []

variable {A : Type}

/-- A leg answered. -/
def Tally.success (hasLines : A → Bool) (tally : Tally A) (leg : ℕ) (answer : A) : Tally A where
  asked := tally.asked ++ [(leg, .ok answer)]
  failures := tally.failures
  anyAnswered := true
  candidates := if hasLines answer then tally.candidates ++ [(leg, answer)] else tally.candidates

/-- A leg failed. -/
def Tally.failure (tally : Tally A) (leg : ℕ) (error : Failure) : Tally A :=
  { tally with
    asked := tally.asked ++ [(leg, .error error)]
    failures := tally.failures.record error }

/-- What a call for a text comes to. -/
def Tally.extracted (tally : Tally A) : Except Failure (List (ℕ × A)) :=
  if !tally.anyAnswered && tally.failures.any then .error tally.failures.raise
  else .ok tally.candidates

/-- What a call for a raster comes to that no leg answered. -/
def Tally.notRendered (tally : Tally A) : Failure :=
  if tally.failures.any then tally.failures.raise
  else ⟨"no backend rendered the page", none⟩

/-- A finished call: what the legs it asked did, and what it came to. -/
structure Call (A : Type) where
  start : CallStart
  asked : List (Outcome A)
  result : Except Failure (List (ℕ × A))

/-- The source.  `sources` are the legs that loaded the document. -/
structure State (A : Type) where
  legs : ℕ
  opened : Bool := false
  openFailure : Option Failure := none
  sources : List Entry := []
  finished : List (Call A) := []

namespace State

/-- A leg was dropped. -/
def IsDropped (s : State A) (leg : ℕ) : Prop :=
  ∃ entry, s.sources[leg]? = some entry ∧ entry.disabled = true

/-- The legs that were dropped. -/
def dropped (s : State A) : List ℕ :=
  (List.range s.sources.length).filter fun leg => s.sources[leg]?.any Entry.disabled

/-- A leg is recorded. -/
def record (s : State A) (leg : ℕ) (f : Entry → Entry) : State A :=
  { s with sources := s.sources.modify leg f }

/-- A call is finished. -/
def finish (s : State A) (start : CallStart) (asked : List (Outcome A))
    (result : Except Failure (List (ℕ × A))) : State A :=
  { s with finished := s.finished ++ [⟨start, asked, result⟩] }

end State

/-- The legs after the probes, unless none loaded the document: those that loaded it leave a
failure behind otherwise. -/
def openSources : List (Except Failure ℤ) → List Entry → LegFailures → Except Failure (List Entry)
  | [], [], failures =>
    .error (if failures.any then failures.raise else ⟨"no backend targets", none⟩)
  | [], sources, _ => .ok sources
  | .ok pages :: probes, sources, failures =>
    openSources probes (sources ++ [{ pages := pages }]) failures
  | .error error :: probes, sources, failures =>
    if error.isCancelled then .error error
    else openSources probes sources (failures.record error)

/-! ### Operations -/

/-- What a thread has still to do. -/
inductive Op (A : Type) where
  /-- Whatever the code around the source does next. -/
  | caller
  /-- `open`. -/
  | opening (start : CallStart)
  /-- Whether the leg at a position is asked for the text, behind those that are. -/
  | scan (start : CallStart) (position : ℕ) (active : List ℕ)
  /-- The legs that are asked read the page, each in a thread of its own. -/
  | join (start : CallStart) (slots : List (ℕ × Option (Except Failure A)))
  /-- What the legs did is recorded, one after the other. -/
  | fold (start : CallStart) (tally : Tally A) (outcomes : List (Outcome A))
  /-- Whether the leg at a position is asked for the raster. -/
  | render (start : CallStart) (position : ℕ) (tally : Tally A)
  /-- A leg renders the page. -/
  | rendering (start : CallStart) (position : ℕ) (tally : Tally A)

/-- The first operation of a call on the open source. -/
def CallStart.first (start : CallStart) : Op A :=
  match start.request with
  | .extract _ => .scan start 0 []
  | .render _ => .render start 0 {}

/-- Whether a call asks a leg. -/
def CallStart.asks (start : CallStart) (entry : Entry) : Bool :=
  start.request.page ≤ entry.pages && !entry.disabled

/-- What an operation does to the source, and the operations it unfolds to.  The failures that
may happen are those with the property `may`. -/
inductive Exec (may : Failure → Prop) (hasLines : A → Bool) (s : State A) :
    Op A → State A → List (Op A) → Prop where
  | call (request : Request) :
      Exec may hasLines s .caller s [.opening ⟨request, s.dropped⟩, .caller]
  | openedAlready {start : CallStart} (opened : s.opened = true) (fine : s.openFailure = none) :
      Exec may hasLines s (.opening start) s [start.first]
  | failedAlready {start : CallStart} {error : Failure} (failed : s.openFailure = some error) :
      Exec may hasLines s (.opening start) (s.finish start [] (.error error)) []
  | opens {start : CallStart} {probes : List (Except Failure ℤ)} {sources : List Entry}
      (closed : s.opened = false) (fine : s.openFailure = none)
      (length : probes.length = s.legs) (failures : ∀ error, .error error ∈ probes → may error)
      (loads : openSources probes [] {} = .ok sources) :
      Exec may hasLines s (.opening start) { s with opened := true, sources := sources }
        [start.first]
  | openFails {start : CallStart} {probes : List (Except Failure ℤ)} {error : Failure}
      (closed : s.opened = false) (fine : s.openFailure = none)
      (length : probes.length = s.legs) (failures : ∀ error, .error error ∈ probes → may error)
      (loads : openSources probes [] {} = .error error) :
      Exec may hasLines s (.opening start)
        ({ s with openFailure := some error }.finish start [] (.error error)) []
  | ask {start : CallStart} {position : ℕ} {active : List ℕ} {entry : Entry}
      (at_leg : s.sources[position]? = some entry) (asks : start.asks entry = true) :
      Exec may hasLines s (.scan start position active) s
        [.scan start (position + 1) (active ++ [position])]
  | spare {start : CallStart} {position : ℕ} {active : List ℕ} {entry : Entry}
      (at_leg : s.sources[position]? = some entry) (spares : start.asks entry = false) :
      Exec may hasLines s (.scan start position active) s [.scan start (position + 1) active]
  | scanned {start : CallStart} {position : ℕ} {active : List ℕ}
      (last : s.sources[position]? = none) :
      Exec may hasLines s (.scan start position active) s [.join start (active.map (·, none))]
  /-- The legs answer or fail in any order. -/
  | answer {start : CallStart} {before after : List (ℕ × Option (Except Failure A))} {leg : ℕ}
      {outcome : Except Failure A} (failures : ∀ error, outcome = .error error → may error) :
      Exec may hasLines s (.join start (before ++ (leg, none) :: after)) s
        [.join start (before ++ (leg, some outcome) :: after)]
  | joined {start : CallStart} {outcomes : List (Outcome A)} :
      Exec may hasLines s (.join start (outcomes.map fun outcome => (outcome.1, some outcome.2))) s
        [.fold start {} outcomes]
  | foldSuccess {start : CallStart} {tally : Tally A} {leg : ℕ} {answer : A}
      {outcomes : List (Outcome A)} :
      Exec may hasLines s (.fold start tally ((leg, .ok answer) :: outcomes))
        (s.record leg recordLegSuccess) [.fold start (tally.success hasLines leg answer) outcomes]
  | foldFailure {start : CallStart} {tally : Tally A} {leg : ℕ} {error : Failure}
      {outcomes : List (Outcome A)} (goesOn : error.isCancelled = false) :
      Exec may hasLines s (.fold start tally ((leg, .error error) :: outcomes))
        (s.record leg recordLegFailure) [.fold start (tally.failure leg error) outcomes]
  | foldCancelled {start : CallStart} {tally : Tally A} {leg : ℕ} {error : Failure}
      {outcomes : List (Outcome A)} (cancelled : error.isCancelled = true) :
      Exec may hasLines s (.fold start tally ((leg, .error error) :: outcomes))
        (s.finish start (tally.asked ++ (leg, .error error) :: outcomes) (.error error)) []
  | extracted {start : CallStart} {tally : Tally A} :
      Exec may hasLines s (.fold start tally []) (s.finish start tally.asked tally.extracted) []
  | askRaster {start : CallStart} {position : ℕ} {tally : Tally A} {entry : Entry}
      (at_leg : s.sources[position]? = some entry) (asks : start.asks entry = true) :
      Exec may hasLines s (.render start position tally) s [.rendering start position tally]
  | spareRaster {start : CallStart} {position : ℕ} {tally : Tally A} {entry : Entry}
      (at_leg : s.sources[position]? = some entry) (spares : start.asks entry = false) :
      Exec may hasLines s (.render start position tally) s [.render start (position + 1) tally]
  | rendered {start : CallStart} {position : ℕ} {tally : Tally A} {answer : A} :
      Exec may hasLines s (.rendering start position tally)
        ((s.record position recordLegSuccess).finish start
          (tally.asked ++ [(position, .ok answer)]) (.ok [(position, answer)])) []
  | renderFailure {start : CallStart} {position : ℕ} {tally : Tally A} {error : Failure}
      (failure : may error) (goesOn : error.isCancelled = false) :
      Exec may hasLines s (.rendering start position tally)
        (s.record position recordLegFailure)
        [.render start (position + 1) (tally.failure position error)]
  | renderCancelled {start : CallStart} {position : ℕ} {tally : Tally A} {error : Failure}
      (failure : may error) (cancelled : error.isCancelled = true) :
      Exec may hasLines s (.rendering start position tally)
        (s.finish start (tally.asked ++ [(position, .error error)]) (.error error)) []
  | notRendered {start : CallStart} {position : ℕ} {tally : Tally A}
      (last : s.sources[position]? = none) :
      Exec may hasLines s (.render start position tally)
        (s.finish start tally.asked (.error tally.notRendered)) []

/-- Any number of threads over a source that was not opened yet. -/
def start (A : Type) (legs threads : ℕ) : Config (State A) Unit (Op A) where
  shared := { legs := legs }
  threads := List.replicate threads ⟨(), [.caller]⟩

/-- The configurations that a source of some legs reaches under some number of threads, where no
call is cancelled and every failure says something. -/
def Reachable (hasLines : A → Bool) (c : Config (State A) Unit (Op A)) : Prop :=
  ∃ legs threads,
    Reaches (fun c => Exec Failure.Plain hasLines c.shared) (start A legs threads) c

/-! ### The breaker -/

/-- The failures of a leg since it last answered. -/
def failuresSince (history : List Bool) : ℕ :=
  history.foldl (fun failures answered => if answered then 0 else failures + 1) 0

@[simp]
theorem failuresSince_concat (history : List Bool) (answered : Bool) :
  failuresSince (history ++ [answered]) = if answered then 0 else failuresSince history + 1
  := by
  rw [failuresSince, foldl_append]
  rfl

/-- A leg is dropped from the failure on that is its third since it last answered. -/
structure Entry.Counted (entry : Entry) : Prop where
  failures : entry.consecutiveFailures = failuresSince entry.history
  below : entry.disabled = false → failuresSince entry.history < kCircuitBreakerFailures
  disabled : entry.disabled = true ↔
    ∃ before, before <+: entry.history ∧ failuresSince before = kCircuitBreakerFailures

theorem counted_opened (pages : ℤ) :
  Entry.Counted { pages := pages }
  := by
  constructor
  case failures => rfl
  case below => simp [failuresSince, kCircuitBreakerFailures]
  case disabled => simp [failuresSince, kCircuitBreakerFailures]

variable {entry : Entry}

theorem Entry.Counted.success (h : entry.Counted) :
  (recordLegSuccess entry).Counted
  := by
  constructor
  case failures => simp [recordLegSuccess]
  case below => simp [recordLegSuccess, kCircuitBreakerFailures]
  case disabled =>
    change entry.disabled = true ↔ ∃ before, before <+: entry.history ++ [true] ∧ _
    rw [h.disabled]
    simp [prefix_concat_iff, or_and_right, exists_or, kCircuitBreakerFailures]

/-- The third failure drops a leg. -/
theorem Entry.Counted.drops (h : entry.Counted) :
  (recordLegFailure entry).disabled = true ↔
    entry.disabled = true ∨ failuresSince entry.history + 1 = kCircuitBreakerFailures
  := by
  simp only [recordLegFailure, h.failures]
  cases hdisabled : entry.disabled with
  | true => simp
  | false =>
    have hbelow := h.below hdisabled
    simp [kCircuitBreakerFailures] at hbelow ⊢
    omega

theorem Entry.Counted.failure (h : entry.Counted) :
  (recordLegFailure entry).Counted
  := by
  constructor
  case failures => simp [recordLegFailure, h.failures]
  case below =>
    intro hdisabled
    have hdrops := h.drops.not
    rw [hdisabled] at hdrops
    obtain ⟨hnot, hthird⟩ := not_or.mp (hdrops.mp (by simp))
    have hbelow := h.below (by simpa using hnot)
    change failuresSince (entry.history ++ [false]) < _
    rw [failuresSince_concat]
    simp
    omega
  case disabled =>
    rw [h.drops, h.disabled]
    change _ ↔ ∃ before, before <+: entry.history ++ [false] ∧ _
    simp [prefix_concat_iff, or_and_right, exists_or, or_comm]

/-- The legs that loaded the document were not asked yet. -/
theorem fresh_openSources {probes : List (Except Failure ℤ)} {sources sources' : List Entry}
    {failures : LegFailures} (h : openSources probes sources failures = .ok sources')
    (hsources : ∀ entry ∈ sources, entry = { pages := entry.pages }) :
  ∀ entry ∈ sources', entry = { pages := entry.pages }
  := by
  induction probes generalizing sources failures with
  | nil =>
    cases sources with
    | nil => cases h
    | cons first sources =>
      obtain rfl := Except.ok.inj h
      exact hsources
  | cons probe probes ih =>
    cases probe with
    | ok pages =>
      apply ih h
      intro entry hentry
      rcases mem_append.mp hentry with hold | hnew
      · exact hsources entry hold
      · rw [mem_singleton.mp hnew]
    | error error =>
      rw [openSources] at h
      split at h
      case isTrue => cases h
      case isFalse => exact ih h hsources

/-! ### What a call knows -/

/-- A leg that was asked was not dropped before, and where it failed, its failure is plain. -/
def Fair (start : CallStart) (outcome : Outcome A) : Prop :=
  outcome.1 ∉ start.dropped ∧ ∀ error, outcome.2 = .error error → error.Plain

/-- The failures of the legs that were asked. -/
def errorsOf (asked : List (Outcome A)) : List Failure :=
  asked.filterMap fun outcome => match outcome.2 with
    | .error error => some error
    | .ok _ => none

/-- What a call knows is what the legs it asked did. -/
structure Tally.Sound (start : CallStart) (tally : Tally A) : Prop where
  failures : tally.failures = recorded (errorsOf tally.asked)
  anyAnswered : tally.anyAnswered = true ↔ ∃ leg answer, (leg, .ok answer) ∈ tally.asked
  fair : ∀ outcome ∈ tally.asked, Fair start outcome

theorem sound_empty (start : CallStart) :
  Tally.Sound (A := A) start {}
  := ⟨rfl, by simp, by simp⟩

theorem Tally.Sound.success {start : CallStart} {tally : Tally A} (h : tally.Sound start)
    (hasLines : A → Bool) {leg : ℕ} {answer : A} (hfair : Fair start (leg, .ok answer)) :
  (tally.success hasLines leg answer).Sound start
  := by
  constructor
  case failures =>
    change tally.failures = _
    simp [Tally.success, errorsOf, h.failures]
  case anyAnswered =>
    constructor
    · exact fun _ => ⟨leg, answer, by simp [Tally.success]⟩
    · exact fun _ => rfl
  case fair => exact forall_mem_append.mpr ⟨h.fair, forall_mem_singleton.mpr hfair⟩

theorem Tally.Sound.failure {start : CallStart} {tally : Tally A} (h : tally.Sound start)
    {leg : ℕ} {error : Failure} (hfair : Fair (A := A) start (leg, .error error)) :
  (tally.failure leg error).Sound start
  := by
  constructor
  case failures =>
    change tally.failures.record error = _
    simp [Tally.failure, errorsOf, h.failures, ← recorded_concat]
  case anyAnswered =>
    change tally.anyAnswered = true ↔ _
    simp [Tally.failure, h.anyAnswered]
  case fair => exact forall_mem_append.mpr ⟨h.fair, forall_mem_singleton.mpr hfair⟩

/-- A call that asked a leg fails exactly when no leg it asked answered; the kind of its failure
is what those of the legs add up to, and no leg it asked was dropped when it started. -/
structure Call.Isolated (call : Call A) : Prop where
  fails : call.asked ≠ [] → ((∃ error, call.result = .error error) ↔
    ∀ outcome ∈ call.asked, ∃ error, outcome.2 = .error error)
  kind : call.asked ≠ [] → ∀ error, call.result = .error error →
    error.reason = jointKind ((errorsOf call.asked).map Failure.reason)
  spared : ∀ outcome ∈ call.asked, outcome.1 ∉ call.start.dropped

section

variable {start : CallStart} {tally : Tally A}

theorem Tally.Sound.plain (h : tally.Sound start) :
  ∀ error ∈ errorsOf tally.asked, error.Plain
  := by
  intro error herror
  obtain ⟨⟨leg, outcome⟩, hmem, heq⟩ := mem_filterMap.mp herror
  cases outcome with
  | ok answer => cases heq
  | error other =>
    obtain rfl := some.inj heq
    exact (h.fair _ hmem).2 other rfl

/-- No leg answered where every leg that was asked failed. -/
theorem Tally.Sound.anyAnswered_iff (h : tally.Sound start) :
  tally.anyAnswered = false ↔ ∀ outcome ∈ tally.asked, ∃ error, outcome.2 = .error error
  := by
  rw [← Bool.not_eq_true, h.anyAnswered]
  constructor
  · rintro hnone ⟨leg, outcome⟩ hmem
    cases outcome with
    | ok answer => exact absurd ⟨leg, answer, hmem⟩ hnone
    | error error => exact ⟨error, rfl⟩
  · rintro hall ⟨leg, answer, hmem⟩
    obtain ⟨error, herror⟩ := hall _ hmem
    cases herror

/-- Where every leg that was asked failed, the failures are noticed. -/
theorem Tally.Sound.errors_ne_nil (hall : ∀ outcome ∈ tally.asked, ∃ error, outcome.2 = .error error)
    (hasked : tally.asked ≠ []) :
  errorsOf tally.asked ≠ []
  := by
  obtain ⟨⟨leg, outcome⟩, rest, hcons⟩ := exists_cons_of_ne_nil hasked
  obtain ⟨error, rfl⟩ := hall (leg, outcome) (by simp [hcons])
  simp [hcons, errorsOf]

/-- A call that no leg answered fails as the failures of the legs add up. -/
theorem Tally.Sound.raises (h : tally.Sound start) (hnone : tally.anyAnswered = false)
    (hasked : tally.asked ≠ []) :
  tally.failures.any = true ∧
    tally.failures.raise.reason = jointKind ((errorsOf tally.asked).map Failure.reason)
  := by
  have herrors := errors_ne_nil (h.anyAnswered_iff.mp hnone) hasked
  rw [h.failures]
  constructor
  · simpa [any_recorded h.plain] using herrors
  · exact reason_raise_recorded herrors h.plain

theorem isolated_extracted (h : tally.Sound start) :
  Call.Isolated ⟨start, tally.asked, tally.extracted⟩
  := by
  constructor
  case fails =>
    intro hasked
    rw [← h.anyAnswered_iff]
    cases hanswered : tally.anyAnswered with
    | true => simp [Tally.extracted, hanswered]
    | false => simp [Tally.extracted, hanswered, (h.raises hanswered hasked).1]
  case kind =>
    rintro hasked error herror
    cases hanswered : tally.anyAnswered with
    | true => simp [Tally.extracted, hanswered] at herror
    | false =>
      obtain ⟨hany, hreason⟩ := h.raises hanswered hasked
      simp only [Tally.extracted, hanswered, hany] at herror
      rw [← Except.error.inj herror]
      exact hreason
  case spared => exact fun outcome houtcome => (h.fair outcome houtcome).1

theorem isolated_notRendered (h : tally.Sound start) (hnone : tally.anyAnswered = false) :
  Call.Isolated ⟨start, tally.asked, .error tally.notRendered⟩
  := by
  constructor
  case fails =>
    intro _
    exact iff_of_true ⟨_, rfl⟩ (h.anyAnswered_iff.mp hnone)
  case kind =>
    rintro hasked error herror
    obtain ⟨hany, hreason⟩ := h.raises hnone hasked
    rw [← Except.error.inj herror, Tally.notRendered, if_pos hany]
    exact hreason
  case spared => exact fun outcome houtcome => (h.fair outcome houtcome).1

theorem isolated_rendered (h : tally.Sound start) {position : ℕ}
    (hposition : position ∉ start.dropped) (answer : A) :
  Call.Isolated ⟨start, tally.asked ++ [(position, .ok answer)], .ok [(position, answer)]⟩
  := by
  constructor
  case fails =>
    intro _
    apply iff_of_false
    · simp
    · intro hall
      obtain ⟨error, herror⟩ := hall (position, .ok answer) (by simp)
      cases herror
  case kind => simp
  case spared =>
    intro outcome houtcome
    rcases mem_append.mp houtcome with hold | hnew
    · exact (h.fair outcome hold).1
    · rw [mem_singleton.mp hnew]
      exact hposition

end

/-! ### The invariant -/

/-- The legs of a source were not asked before it was opened; every leg is dropped by its third
failure in a row, and every call is isolated from the failures of single legs. -/
structure State.Sound (s : State A) : Prop where
  closed : s.opened = false → s.sources = []
  counted : ∀ entry ∈ s.sources, entry.Counted
  isolated : ∀ call ∈ s.finished, call.Isolated

/-- The legs that a call found dropped are dropped. -/
def CallStart.Saw (start : CallStart) (s : State A) : Prop :=
  ∀ leg ∈ start.dropped, s.IsDropped leg

/-- What an operation knows. -/
def Op.Sound (s : State A) : Op A → Prop
  | .caller => True
  | .opening start => start.Saw s
  | .scan start _ active => start.Saw s ∧ ∀ leg ∈ active, leg ∉ start.dropped
  | .join start slots => start.Saw s ∧ ∀ slot ∈ slots,
      slot.1 ∉ start.dropped ∧ ∀ error, slot.2 = some (.error error) → error.Plain
  | .fold start tally outcomes => start.Saw s ∧ tally.Sound start ∧
      ∀ outcome ∈ outcomes, Fair start outcome
  | .render start _ tally => start.Saw s ∧ tally.Sound start ∧ tally.anyAnswered = false
  | .rendering start position tally => start.Saw s ∧ tally.Sound start ∧
      tally.anyAnswered = false ∧ position ∉ start.dropped

variable {hasLines : A → Bool} {s s' : State A} {op : Op A} {next : List (Op A)}

/-- What an operation knows stays true as long as no leg is taken up again. -/
theorem Op.Sound.mono (h : op.Sound s) (hdropped : ∀ leg, s.IsDropped leg → s'.IsDropped leg) :
  op.Sound s'
  := by
  have saw : ∀ {start : CallStart}, start.Saw s → start.Saw s' :=
    fun hsaw leg hleg => hdropped leg (hsaw leg hleg)
  cases op with
  | caller => trivial
  | opening start => exact saw h
  | scan start position active => exact ⟨saw h.1, h.2⟩
  | join start slots => exact ⟨saw h.1, h.2⟩
  | fold start tally outcomes => exact ⟨saw h.1, h.2⟩
  | render start position tally => exact ⟨saw h.1, h.2⟩
  | rendering start position tally => exact ⟨saw h.1, h.2⟩

theorem State.mem_dropped {leg : ℕ} :
  leg ∈ s.dropped ↔ s.IsDropped leg
  := by
  rw [dropped, List.mem_filter, IsDropped, Option.any_eq_true]
  constructor
  · exact fun h => h.2
  · rintro ⟨entry, hentry, hdisabled⟩
    exact ⟨List.mem_range.mpr (List.getElem?_eq_some_iff.mp hentry).1, entry, hentry, hdisabled⟩

/-- A leg that a call asks was not dropped before. -/
theorem CallStart.Saw.spares {start : CallStart} (h : start.Saw s) {leg : ℕ}
    (hleg : s.sources[leg]? = some entry) (hasks : start.asks entry = true) :
  leg ∉ start.dropped
  := by
  intro hmem
  obtain ⟨other, hother, hdisabled⟩ := h leg hmem
  obtain rfl := some.inj (hleg.symm.trans hother)
  simp [CallStart.asks, hdisabled] at hasks

theorem State.getElem?_record (leg other : ℕ) (f : Entry → Entry) :
  (s.record leg f).sources[other]?
    = if leg = other then s.sources[other]?.map f else s.sources[other]?
  := by
  rw [record, getElem?_modify]
  split
  · rfl
  · simp

/-- To record a leg drops none that it does not drop itself. -/
theorem State.IsDropped.record {leg other : ℕ} {f : Entry → Entry}
    (hf : ∀ entry, entry.disabled = true → (f entry).disabled = true) (h : s.IsDropped other) :
  (s.record leg f).IsDropped other
  := by
  obtain ⟨entry, hentry, hdisabled⟩ := h
  by_cases hsame : leg = other
  · use f entry
    rw [getElem?_record, if_pos hsame, hentry]
    exact ⟨rfl, hf entry hdisabled⟩
  · use entry
    rw [getElem?_record, if_neg hsame]
    exact ⟨hentry, hdisabled⟩

theorem disabled_recordLegFailure (h : entry.disabled = true) :
  (recordLegFailure entry).disabled = true
  := by simp [recordLegFailure, h]

/-- A leg that was dropped stays dropped. -/
theorem Exec.dropped (h : Exec Failure.Plain hasLines s op s' next) (hs : s.Sound) {leg : ℕ}
    (hleg : s.IsDropped leg) :
  s'.IsDropped leg
  := by
  cases h
  case opens closed _ _ _ _ =>
    obtain ⟨entry, hentry, -⟩ := hleg
    simp [hs.closed closed] at hentry
  case foldSuccess => exact hleg.record fun _ => id
  case rendered => exact State.IsDropped.record (fun _ => id) hleg
  case foldFailure | renderFailure =>
    exact hleg.record fun _ => disabled_recordLegFailure
  all_goals exact hleg

theorem State.Sound.record (hs : s.Sound) (leg : ℕ)
    {f : Entry → Entry} (hf : ∀ entry, entry.Counted → (f entry).Counted) :
  (s.record leg f).Sound
  := by
  constructor
  case closed =>
    intro hclosed
    simp [State.record, hs.closed hclosed]
  case counted =>
    intro entry hentry
    obtain ⟨position, hposition⟩ := mem_iff_getElem?.mp hentry
    rw [getElem?_record] at hposition
    split at hposition
    case isTrue =>
      obtain ⟨old, hold, rfl⟩ := map_eq_some_iff.mp hposition
      exact hf old (hs.counted old (mem_of_getElem? hold))
    case isFalse => exact hs.counted entry (mem_of_getElem? hposition)
  case isolated => exact hs.isolated

theorem State.Sound.finish (hs : s.Sound) {start : CallStart} {asked : List (Outcome A)}
    {result : Except Failure (List (ℕ × A))} (hcall : Call.Isolated ⟨start, asked, result⟩) :
  (s.finish start asked result).Sound
  where
    closed := hs.closed
    counted := hs.counted
    isolated := List.forall_mem_append.mpr ⟨hs.isolated, List.forall_mem_singleton.mpr hcall⟩

/-- Every operation keeps the source sound, and the operations it unfolds to know what is so. -/
theorem Exec.sound (h : Exec Failure.Plain hasLines s op s' next) (hs : s.Sound)
    (hop : op.Sound s) :
  s'.Sound ∧ ∀ op' ∈ next, op'.Sound s'
  := by
  have kept := fun leg => @Exec.dropped _ _ _ _ _ _ h hs leg
  have first : ∀ {start : CallStart} {s : State A}, start.Saw s → (start.first : Op A).Sound s := by
    intro start s hsaw
    unfold CallStart.first
    split
    · exact ⟨hsaw, by simp⟩
    · exact ⟨hsaw, sound_empty start, rfl⟩
  have only : ∀ {op : Op A} {s : State A}, op.Sound s → ∀ op' ∈ [op], op'.Sound s := by
    intro op s hop op' hop'
    rwa [mem_singleton.mp hop']
  cases h
  case call request =>
    use hs
    simp only [mem_cons, not_mem_nil, or_false, forall_eq_or_imp, forall_eq]
    exact ⟨fun leg hleg => State.mem_dropped.mp hleg, trivial⟩
  case openedAlready start opened fine => exact ⟨hs, only (first hop)⟩
  case failedAlready start error failed =>
    exact ⟨hs.finish ⟨by simp, by simp, by simp⟩, by simp⟩
  case opens start probes sources closed fine length failures loads =>
    have hfresh := fresh_openSources loads (by simp)
    constructor
    · constructor
      case closed => exact fun hfalse => by cases hfalse
      case counted =>
        intro entry hentry
        rw [hfresh entry hentry]
        exact counted_opened entry.pages
      case isolated => exact hs.isolated
    · exact only (first fun leg hleg => kept leg (hop leg hleg))
  case openFails start probes error closed fine length failures loads =>
    have hfailed : State.Sound { s with openFailure := some error } :=
      ⟨hs.closed, hs.counted, hs.isolated⟩
    exact ⟨hfailed.finish ⟨by simp, by simp, by simp⟩, by simp⟩
  case ask start position active entry at_leg asks =>
    use hs
    apply only
    use hop.1
    intro leg hleg
    rcases mem_append.mp hleg with hold | hnew
    · exact hop.2 leg hold
    · rw [mem_singleton.mp hnew]
      exact hop.1.spares at_leg asks
  case spare => exact ⟨hs, only hop⟩
  case scanned start position active last =>
    use hs
    apply only
    use hop.1
    intro slot hslot
    obtain ⟨leg, hleg, rfl⟩ := mem_map.mp hslot
    exact ⟨hop.2 leg hleg, by simp⟩
  case answer start before after leg outcome failures =>
    use hs
    apply only
    use hop.1
    intro slot hslot
    rcases mem_append.mp hslot with hbefore | hrest
    · exact hop.2 slot (mem_append_left _ hbefore)
    · rcases mem_cons.mp hrest with rfl | hafter
      · use (hop.2 (leg, none) (by simp)).1
        exact fun error herror => failures error (some.inj herror)
      · exact hop.2 slot (mem_append_right _ (mem_cons_of_mem _ hafter))
  case joined start outcomes =>
    use hs
    apply only
    use hop.1, sound_empty start
    intro outcome houtcome
    obtain ⟨hspared, hplain⟩ := hop.2 _ (mem_map_of_mem houtcome)
    exact ⟨hspared, fun error herror => hplain error (congrArg some herror)⟩
  case foldSuccess start tally leg answer outcomes =>
    obtain ⟨hsaw, htally, houtcomes⟩ := hop
    obtain ⟨hfair, hrest⟩ := forall_mem_cons.mp houtcomes
    use hs.record leg fun _ => Entry.Counted.success
    apply only
    exact ⟨fun leg hleg => kept leg (hsaw leg hleg), htally.success hasLines hfair, hrest⟩
  case foldFailure start tally leg error outcomes goesOn =>
    obtain ⟨hsaw, htally, houtcomes⟩ := hop
    obtain ⟨hfair, hrest⟩ := forall_mem_cons.mp houtcomes
    use hs.record leg fun _ => Entry.Counted.failure
    apply only
    exact ⟨fun leg hleg => kept leg (hsaw leg hleg), htally.failure hfair, hrest⟩
  case foldCancelled start tally leg error outcomes cancelled =>
    have hplain := (hop.2.2 (leg, .error error) (by simp)).2 error rfl
    exact absurd (cancelled.symm.trans hplain.2) (by decide)
  case extracted start tally => exact ⟨hs.finish (isolated_extracted hop.2.1), by simp⟩
  case askRaster start position tally entry at_leg asks =>
    use hs
    apply only
    exact ⟨hop.1, hop.2.1, hop.2.2, hop.1.spares at_leg asks⟩
  case spareRaster => exact ⟨hs, only hop⟩
  case rendered start position tally answer =>
    have hrecord := hs.record position fun _ => Entry.Counted.success
    exact ⟨hrecord.finish (isolated_rendered hop.2.1 hop.2.2.2 answer), by simp⟩
  case renderFailure start position tally error failure goesOn =>
    obtain ⟨hsaw, htally, hnone, hspared⟩ := hop
    have hfair : Fair (A := A) start (position, .error error) :=
      ⟨hspared, fun other hother => by rwa [← Except.error.inj hother]⟩
    use hs.record position fun _ => Entry.Counted.failure
    apply only
    exact ⟨fun leg hleg => kept leg (hsaw leg hleg), htally.failure hfair, hnone⟩
  case renderCancelled start position tally error failure cancelled =>
    exact absurd (cancelled.symm.trans failure.2) (by decide)
  case notRendered start position tally last =>
    exact ⟨hs.finish (isolated_notRendered hop.2.1 hop.2.2), by simp⟩

/-! ### When a leg is dropped -/

/-- The step records the third failure of a leg since it last answered. -/
def FailsThird (s s' : State A) (leg : ℕ) : Prop :=
  ∃ entry, s.sources[leg]? = some entry ∧ s'.sources[leg]? = some (recordLegFailure entry) ∧
    failuresSince entry.history + 1 = kCircuitBreakerFailures

theorem recordLegFailure_ne (entry : Entry) :
  recordLegFailure entry ≠ entry
  := by
  intro h
  have hlength := congrArg (fun entry => entry.history.length) h
  simp [recordLegFailure] at hlength

/-- Where nothing is recorded of a leg, it is not dropped. -/
theorem drops_of_eq {leg : ℕ} (hleg : ¬ s.IsDropped leg)
    (hsources : s'.sources[leg]? = s.sources[leg]?) :
  s'.IsDropped leg ↔ FailsThird s s' leg
  := by
  apply iff_of_false
  · rwa [State.IsDropped, hsources]
  · rintro ⟨entry, hentry, hfailed, -⟩
    rw [hsources, hentry] at hfailed
    exact recordLegFailure_ne entry (some.inj hfailed).symm

theorem drops_recordSuccess {leg other : ℕ} (hleg : ¬ s.IsDropped other)
    (hsources : s'.sources = (s.record leg recordLegSuccess).sources) :
  s'.IsDropped other ↔ FailsThird s s' other
  := by
  have hget : s'.sources[other]? =
      if leg = other then s.sources[other]?.map recordLegSuccess else s.sources[other]? := by
    rw [hsources, State.getElem?_record]
  by_cases hsame : leg = other
  · rw [if_pos hsame] at hget
    apply iff_of_false
    · rintro ⟨entry, hentry, hdisabled⟩
      obtain ⟨old, hold, rfl⟩ := map_eq_some_iff.mp (hget.symm.trans hentry)
      exact hleg ⟨old, hold, hdisabled⟩
    · rintro ⟨entry, hentry, hfailed, -⟩
      rw [hget, hentry] at hfailed
      have hhistory := congrArg Entry.history (some.inj hfailed)
      simp [recordLegSuccess, recordLegFailure] at hhistory
  · rw [if_neg hsame] at hget
    exact drops_of_eq hleg hget

theorem drops_recordFailure {leg other : ℕ} (hs : s.Sound) (hleg : ¬ s.IsDropped other)
    (hsources : s'.sources = (s.record leg recordLegFailure).sources) :
  s'.IsDropped other ↔ FailsThird s s' other
  := by
  have hget : s'.sources[other]? =
      if leg = other then s.sources[other]?.map recordLegFailure else s.sources[other]? := by
    rw [hsources, State.getElem?_record]
  by_cases hsame : leg = other
  · rw [if_pos hsame] at hget
    cases hentry : s.sources[other]? with
    | none => simp [State.IsDropped, FailsThird, hget, hentry]
    | some entry =>
      have hdrops := (hs.counted entry (mem_of_getElem? hentry)).drops
      have hnot : entry.disabled ≠ true := fun hdisabled => hleg ⟨entry, hentry, hdisabled⟩
      simp [State.IsDropped, FailsThird, hget, hentry, hdrops, hnot]
  · rw [if_neg hsame] at hget
    exact drops_of_eq hleg hget

/-- A leg is dropped by its third failure since it last answered, and by nothing else. -/
theorem Exec.drops (h : Exec Failure.Plain hasLines s op s' next) (hs : s.Sound) {leg : ℕ}
    (hleg : ¬ s.IsDropped leg) :
  s'.IsDropped leg ↔ FailsThird s s' leg
  := by
  cases h
  case opens start probes sources closed fine length failures loads =>
    have hfresh := fresh_openSources loads (by simp)
    apply iff_of_false
    · rintro ⟨entry, hentry, hdisabled⟩
      rw [hfresh entry (mem_of_getElem? hentry)] at hdisabled
      cases hdisabled
    · rintro ⟨entry, hentry, -⟩
      simp [hs.closed closed] at hentry
  case foldSuccess => exact drops_recordSuccess hleg rfl
  case rendered => exact drops_recordSuccess hleg rfl
  case foldFailure => exact drops_recordFailure hs hleg rfl
  case renderFailure => exact drops_recordFailure hs hleg rfl
  all_goals exact drops_of_eq hleg rfl

/-! ### Isolation -/

/-- The legs that an operation's call asks or asked. -/
def Op.legs : Op A → List ℕ
  | .caller | .opening _ => []
  | .scan _ _ active => active
  | .join _ slots => slots.map Prod.fst
  | .fold _ tally outcomes => (tally.asked ++ outcomes).map Prod.fst
  | .render _ _ tally => tally.asked.map Prod.fst
  | .rendering _ position tally => tally.asked.map Prod.fst ++ [position]

/-- The legs that were dropped when an operation's call started. -/
def Op.dropped : Op A → List ℕ
  | .caller => []
  | .opening start | .scan start _ _ | .join start _ | .fold start _ _ | .render start _ _
  | .rendering start _ _ => start.dropped

/-- The source isolates its legs: what the finished calls came to; no call asks a leg that was
dropped when it started; a leg is dropped when its third failure in a row is recorded, and once
it was, it stays dropped. -/
structure Isolates (hasLines : A → Bool) (c : Config (State A) Unit (Op A)) : Prop where
  calls : ∀ call ∈ c.shared.finished, call.Isolated
  asking : ∀ op ∈ c.ops, ∀ leg ∈ op.legs, leg ∉ op.dropped
  counted : ∀ entry ∈ c.shared.sources, entry.Counted
  drops : ∀ {op c'}, Step (fun c => Exec Failure.Plain hasLines c.shared) c op c' → ∀ leg,
    (c.shared.IsDropped leg → c'.shared.IsDropped leg) ∧
      (¬ c.shared.IsDropped leg → (c'.shared.IsDropped leg ↔ FailsThird c.shared c'.shared leg))

theorem Op.Sound.spares (h : op.Sound s) :
  ∀ leg ∈ op.legs, leg ∉ op.dropped
  := by
  have fair : ∀ {start : CallStart} {asked : List (Outcome A)},
      (∀ outcome ∈ asked, Fair start outcome) → ∀ leg ∈ asked.map Prod.fst, leg ∉ start.dropped := by
    intro start asked hfair leg hleg
    obtain ⟨outcome, houtcome, rfl⟩ := mem_map.mp hleg
    exact (hfair outcome houtcome).1
  cases op with
  | caller => simp [legs]
  | opening start => simp [legs]
  | scan start position active => exact h.2
  | join start slots =>
    intro leg hleg
    obtain ⟨slot, hslot, rfl⟩ := mem_map.mp hleg
    exact (h.2 slot hslot).1
  | fold start tally outcomes => exact fair (forall_mem_append.mpr ⟨h.2.1.fair, h.2.2⟩)
  | render start position tally => exact fair h.2.1.fair
  | rendering start position tally =>
    intro leg hleg
    rcases mem_append.mp hleg with hold | hnew
    · exact fair h.2.1.fair leg hold
    · rw [mem_singleton.mp hnew]
      exact h.2.2.2

/-- In every reachable state the source is sound, and all operations know what is so. -/
theorem Reachable.sound {c : Config (State A) Unit (Op A)} (h : Reachable hasLines c) :
  c.shared.Sound ∧ ∀ op ∈ c.ops, op.Sound c.shared
  := by
  obtain ⟨legs, threads, hrun⟩ := h
  apply hrun.invariant (P := fun c => c.shared.Sound ∧ ∀ op ∈ c.ops, op.Sound c.shared)
  · constructor
    · exact ⟨fun _ => rfl, by simp [start], by simp [start]⟩
    · intro op hop
      have hcaller : op = .caller := by
        revert hop
        simp +contextual [Config.ops, start]
      rw [hcaller]
      trivial
  · rintro c c' op ⟨hs, hops⟩ - hstep
    obtain ⟨next, rest, hexec, hperm, hperm'⟩ := hstep.ops_perm
    have hop := hops op (hperm.mem_iff.mpr mem_cons_self)
    obtain ⟨hs', hnext⟩ := hexec.sound hs hop
    use hs'
    intro op' hop'
    rcases mem_append.mp (hperm'.mem_iff.mp hop') with hnew | hold
    · exact hnext op' hnew
    · have hkept := hops op' (hperm.mem_iff.mpr (mem_cons_of_mem _ hold))
      exact hkept.mono fun leg => hexec.dropped hs

/-- In every reachable state the source isolates its legs. -/
theorem Reachable.isolates {c : Config (State A) Unit (Op A)} (h : Reachable hasLines c) :
  Isolates hasLines c
  := by
  obtain ⟨hs, hops⟩ := h.sound
  constructor
  case calls => exact hs.isolated
  case asking => exact fun op hop => (hops op hop).spares
  case counted => exact hs.counted
  case drops =>
    intro op c' hstep leg
    obtain ⟨next, rest, hexec, -, -⟩ := hstep.ops_perm
    exact ⟨hexec.dropped hs, hexec.drops hs⟩

/-- One call for a text asks the only leg, which is unavailable. -/
theorem Reachable.isolates_oneCall :
  ∃ c : Config (State Unit) Unit (Op Unit),
    c.shared.finished = [⟨⟨.extract 1, []⟩, [(0, .error ⟨"down", some .unavailable⟩)],
      .error ⟨"down", some .unavailable⟩⟩] ∧ Isolates (fun _ => true) c
  := by
  have hplain : Failure.Plain ⟨"down", some .unavailable⟩ := by simp [Failure.Plain, Failure.isCancelled]
  have hstart : Reaches (fun c => Exec Failure.Plain (fun _ : Unit => true) c.shared)
      (start Unit 1 1) (start Unit 1 1) := .refl
  have hcalled := hstart.andThen 0 (.call (.extract 1))
  have hopened := hcalled.andThen 0
    (@Exec.opens _ _ _ _ _ [.ok 1] [{ pages := 1 }] rfl rfl rfl (by simp) rfl)
  have hasked := hopened.andThen 0 (@Exec.ask _ _ _ _ _ _ _ { pages := 1 } rfl rfl)
  have hscanned := hasked.andThen 0 (.scanned rfl)
  have hanswered := hscanned.andThen 0
    (@Exec.answer _ _ _ _ _ [] [] 0 (.error ⟨"down", some .unavailable⟩)
      fun error herror => Except.error.inj herror ▸ hplain)
  have hjoined := hanswered.andThen 0
    (@Exec.joined _ _ _ _ _ [(0, .error ⟨"down", some .unavailable⟩)])
  have hfolded := hjoined.andThen 0 (.foldFailure rfl)
  have hfinished := hfolded.andThen 0 .extracted
  exact ⟨_, rfl, Reachable.isolates ⟨1, 1, hfinished⟩⟩

end GRParse.Pdf
