import GRParse.Pdf.Consensus

/-!
# Outages of the consensus page source

Where every failure of a leg is one of the transport, no call is to say anything of the document: a
text layer is found missing only by a leg that answered, and no call fails as for an invalid
document.  This holds of the calls that find a leg to ask; a call that comes when all legs with its
page were dropped says that there is no text layer, or that the document is invalid.
-/

namespace GRParse.Pdf

open ThreadPool List

/-- A failure of the transport, which says something and is no cancel. -/
def Failure.Transport (error : Failure) : Prop :=
  error.Plain ∧ error.reason ≠ none

variable {A : Type}

/-- A failure that may happen may happen where more may. -/
theorem Exec.mono {may may' : Failure → Prop} (hmay : ∀ error, may error → may' error)
    {hasLines : A → Bool} {s s' : State A} {op : Op A} {next : List (Op A)}
    (h : Exec may hasLines s op s' next) :
  Exec may' hasLines s op s' next
  := by
  cases h with
  | call request => exact .call request
  | openedAlready opened fine => exact .openedAlready opened fine
  | failedAlready failed => exact .failedAlready failed
  | opens closed fine length failures loads =>
    exact .opens closed fine length (fun error herror => hmay error (failures error herror)) loads
  | openFails closed fine length failures loads =>
    exact .openFails closed fine length (fun error herror => hmay error (failures error herror))
      loads
  | ask at_leg asks => exact .ask at_leg asks
  | spare at_leg spares => exact .spare at_leg spares
  | scanned last => exact .scanned last
  | answer failures => exact .answer fun error herror => hmay error (failures error herror)
  | joined => exact .joined
  | foldSuccess => exact .foldSuccess
  | foldFailure goesOn => exact .foldFailure goesOn
  | foldCancelled cancelled => exact .foldCancelled cancelled
  | extracted => exact .extracted
  | askRaster at_leg asks => exact .askRaster at_leg asks
  | spareRaster at_leg spares => exact .spareRaster at_leg spares
  | rendered => exact .rendered
  | renderFailure failure goesOn => exact .renderFailure (hmay _ failure) goesOn
  | renderCancelled failure cancelled => exact .renderCancelled (hmay _ failure) cancelled
  | notRendered last => exact .notRendered last

theorem Step.mono_exec {may may' : Failure → Prop} (hmay : ∀ error, may error → may' error)
    {hasLines : A → Bool} {c c' : Config (State A) Unit (Op A)} {op : Op A}
    (h : Step (fun c => Exec may hasLines c.shared) c op c') :
  Step (fun c => Exec may' hasLines c.shared) c op c'
  := by
  obtain ⟨at_thread, runs⟩ := h
  exact .run at_thread (runs.mono hmay)

/-! ### Calls that find a leg -/

/-- A leg of the source has the page of a call. -/
def State.Covers (s : State A) (start : CallStart) : Prop :=
  ∃ entry ∈ s.sources, start.request.page ≤ entry.pages

/-- A call that has looked at all legs found one to ask. -/
def Op.Finds (s : State A) : Op A → Prop
  | .scan start position active =>
    s.Covers start → s.sources[position]? = none → active ≠ []
  | .render start position tally =>
    s.Covers start → s.sources[position]? = none → tally.asked ≠ []
  | _ => True

/-- The configurations that a source reaches where all failures are of the transport, and each call
for a page that some leg has finds a leg to ask. -/
def Served (hasLines : A → Bool) (c : Config (State A) Unit (Op A)) : Prop :=
  ∃ legs threads, RunsTo (fun c => Exec Failure.Transport hasLines c.shared)
    (fun c op => op.Finds c.shared) (start A legs threads) c

/-- A missing text layer is what a leg said, and no failure is one of the document. -/
structure Call.Outspoken (call : Call A) : Prop where
  missing : call.result = .ok [] → ∃ leg answer, (leg, .ok answer) ∈ call.asked
  failure : ∀ error, call.result = .error error → error.reason ≠ none

/-- Only the transport failed. -/
def Transported (asked : List (Outcome A)) : Prop :=
  ∀ outcome ∈ asked, ∀ error, outcome.2 = .error error → error.reason ≠ none

theorem transported_append {asked asked' : List (Outcome A)} :
  Transported (asked ++ asked') ↔ Transported asked ∧ Transported asked'
  := forall_mem_append

/-- Failures of the transport add up to one. -/
theorem jointKind_ne_none {kinds : Multiset (Option PdfBackendFailure)} (h : none ∉ kinds) :
  jointKind kinds ≠ none
  := by
  rw [jointKind, if_neg h]
  intro hnone
  rw [Option.orElse_eq_orElse, Option.orElse_eq_or, Option.or_eq_none_iff] at hnone
  cases hnone.2

/-- A call that asked a leg is outspoken, if it is isolated from the failures of single legs. -/
theorem Call.Isolated.speaks {call : Call A} (h : call.Isolated) (hasked : call.asked ≠ [])
    (htransport : Transported call.asked) :
  call.Outspoken
  := by
  constructor
  case missing =>
    intro hresult
    by_contra hnone
    have hall : ∀ outcome ∈ call.asked, ∃ error, outcome.2 = .error error := by
      rintro ⟨leg, outcome⟩ hmem
      cases outcome with
      | ok answer => exact absurd ⟨leg, answer, hmem⟩ hnone
      | error error => exact ⟨error, rfl⟩
    obtain ⟨error, herror⟩ := (h.fails hasked).mpr hall
    rw [hresult] at herror
    cases herror
  case failure =>
    intro error herror
    rw [h.kind hasked error herror]
    apply jointKind_ne_none
    rw [Multiset.mem_coe, mem_map]
    rintro ⟨other, hother, hreason⟩
    obtain ⟨⟨leg, outcome⟩, hmem, heq⟩ := mem_filterMap.mp hother
    cases outcome with
    | ok answer => cases heq
    | error failure =>
      cases heq
      exact htransport _ hmem _ rfl hreason

/-! ### The invariant -/

/-- A source whose opening failed stays closed; once it is open, its calls asked a leg when one has
their page, and only the transport failed. -/
structure State.Serving (s : State A) : Prop where
  fine : s.opened = true → s.openFailure = none
  fresh : s.opened = false → s.openFailure = none → s.finished = []
  transported : ∀ call ∈ s.finished, Transported call.asked
  asked : s.opened = true → ∀ call ∈ s.finished, s.Covers call.start → call.asked ≠ []

/-- What an operation of an open source knows. -/
def Op.Serving (s : State A) : Op A → Prop
  | .caller | .opening _ => True
  | .scan _ _ _ => s.opened = true
  | .join start slots => s.opened = true ∧ (s.Covers start → slots ≠ []) ∧
      ∀ slot ∈ slots, ∀ error, slot.2 = some (.error error) → error.reason ≠ none
  | .fold start tally outcomes => s.opened = true ∧
      (s.Covers start → tally.asked ++ outcomes ≠ []) ∧ Transported (tally.asked ++ outcomes)
  | .render _ _ tally | .rendering _ _ tally => s.opened = true ∧ Transported tally.asked

section

variable {hasLines : A → Bool} {s s' : State A} {op : Op A} {next : List (Op A)}

theorem State.covers_record {start : CallStart} (leg : ℕ) {f : Entry → Entry}
    (hf : ∀ entry, (f entry).pages = entry.pages) :
  (s.record leg f).Covers start ↔ s.Covers start
  := by
  constructor
  · rintro ⟨entry, hentry, hpage⟩
    obtain ⟨position, hposition⟩ := mem_iff_getElem?.mp hentry
    rw [getElem?_record] at hposition
    split at hposition
    case isTrue =>
      obtain ⟨old, hold, rfl⟩ := Option.map_eq_some_iff.mp hposition
      exact ⟨old, mem_of_getElem? hold, (hf old) ▸ hpage⟩
    case isFalse => exact ⟨entry, mem_of_getElem? hposition, hpage⟩
  · rintro ⟨entry, hentry, hpage⟩
    obtain ⟨position, hposition⟩ := mem_iff_getElem?.mp hentry
    have hget := s.getElem?_record leg position f
    rw [hposition] at hget
    by_cases hsame : leg = position
    · rw [if_pos hsame] at hget
      exact ⟨f entry, mem_of_getElem? hget, (hf entry).symm ▸ hpage⟩
    · rw [if_neg hsame] at hget
      exact ⟨entry, mem_of_getElem? hget, hpage⟩

/-- An open source stays open, and its legs keep their pages. -/
theorem Exec.keeps {may : Failure → Prop} (h : Exec may hasLines s op s' next)
    (hopened : s.opened = true) :
  s'.opened = true ∧ ∀ start, s'.Covers start ↔ s.Covers start
  := by
  cases h
  case opens closed _ _ _ _ => exact absurd (hopened.symm.trans closed) (by decide)
  case openFails closed _ _ _ _ => exact absurd (hopened.symm.trans closed) (by decide)
  case foldSuccess | rendered =>
    exact ⟨hopened, fun _ => State.covers_record _ fun _ => rfl⟩
  case foldFailure | renderFailure =>
    exact ⟨hopened, fun _ => State.covers_record _ fun _ => rfl⟩
  all_goals exact ⟨hopened, fun _ => Iff.rfl⟩

/-- What an operation knows stays true. -/
theorem Op.Serving.mono (h : op.Serving s)
    (hkeeps : s.opened = true → s'.opened = true ∧ ∀ start, s'.Covers start ↔ s.Covers start) :
  op.Serving s'
  := by
  cases op with
  | caller => trivial
  | opening start => trivial
  | scan start position active => exact (hkeeps h).1
  | join start slots =>
    obtain ⟨hopened, hcovers⟩ := hkeeps h.1
    exact ⟨hopened, fun hcover => h.2.1 ((hcovers start).mp hcover), h.2.2⟩
  | fold start tally outcomes =>
    obtain ⟨hopened, hcovers⟩ := hkeeps h.1
    exact ⟨hopened, fun hcover => h.2.1 ((hcovers start).mp hcover), h.2.2⟩
  | render start position tally => exact ⟨(hkeeps h.1).1, h.2⟩
  | rendering start position tally => exact ⟨(hkeeps h.1).1, h.2⟩

theorem State.Serving.record (hs : s.Serving) (leg : ℕ) {f : Entry → Entry}
    (hf : ∀ entry, (f entry).pages = entry.pages) :
  (s.record leg f).Serving
  where
  fine := hs.fine
  fresh := hs.fresh
  transported := hs.transported
  asked := fun hopened call hcall hcover =>
    hs.asked hopened call hcall ((State.covers_record leg hf).mp hcover)

theorem State.Serving.finish (hs : s.Serving) (hopened : s.opened = true) {start : CallStart}
    {asked : List (Outcome A)} (htransport : Transported asked)
    (hasked : s.Covers start → asked ≠ []) (result : Except Failure (List (ℕ × A))) :
  (s.finish start asked result).Serving
  where
  fine := hs.fine
  fresh := fun hclosed => absurd (hopened.symm.trans hclosed) (by decide)
  transported := List.forall_mem_append.mpr
    ⟨hs.transported, List.forall_mem_singleton.mpr htransport⟩
  asked := fun hopened => List.forall_mem_append.mpr
    ⟨hs.asked hopened, List.forall_mem_singleton.mpr hasked⟩

theorem transported_success {leg : ℕ} {answer : A} : Transported [(leg, Except.ok answer)] := by
  intro outcome houtcome error herror
  rw [List.mem_singleton.mp houtcome] at herror
  cases herror

theorem transported_failure {leg : ℕ} {error : Failure} (h : error.reason ≠ none) :
  Transported (A := A) [(leg, .error error)]
  := by
  intro outcome houtcome other hother
  rw [mem_singleton.mp houtcome] at hother
  cases hother
  exact h

/-- An operation that finds a leg keeps the source serving. -/
theorem Exec.serving (h : Exec Failure.Transport hasLines s op s' next) (hs : s.Serving)
    (hop : op.Serving s) (hfinds : op.Finds s) :
  s'.Serving ∧ ∀ op' ∈ next, op'.Serving s'
  := by
  have first : ∀ {start : CallStart} {s : State A}, s.opened = true →
      (start.first : Op A).Serving s := by
    intro start s hopened
    unfold CallStart.first
    split
    · exact hopened
    · exact ⟨hopened, fun _ houtcome => absurd houtcome not_mem_nil⟩
  have only : ∀ {op : Op A} {s : State A}, op.Serving s → ∀ op' ∈ [op], op'.Serving s := by
    intro op s hop op' hop'
    rwa [mem_singleton.mp hop']
  cases h
  case call request =>
    use hs
    intro op' hop'
    rcases mem_cons.mp hop' with rfl | hop'
    · trivial
    · rw [mem_singleton.mp hop']
      trivial
  case openedAlready start opened fine => exact ⟨hs, only (first opened)⟩
  case failedAlready start error failed =>
    have hclosed : s.opened ≠ true := fun hopened => by
      rw [hs.fine hopened] at failed
      cases failed
    refine ⟨⟨hs.fine, fun _ hnone => ?_, ?_, fun hopened => absurd hopened hclosed⟩, by simp⟩
    · exact absurd (failed.symm.trans hnone) (by simp)
    · exact forall_mem_append.mpr ⟨hs.transported, forall_mem_singleton.mpr
        fun _ houtcome => absurd houtcome not_mem_nil⟩
  case opens start probes sources closed fine length failures loads =>
    refine ⟨⟨fun _ => fine, fun hclosed => (by cases hclosed), hs.transported, ?_⟩,
      only (first rfl)⟩
    intro _ call hcall
    rw [hs.fresh closed fine] at hcall
    cases hcall
  case openFails start probes error closed fine length failures loads =>
    refine ⟨⟨fun hopened => absurd (hopened.symm.trans closed) (by decide),
      fun _ hnone => (by cases hnone), ?_, fun hopened =>
        absurd (hopened.symm.trans closed) (by decide)⟩, by simp⟩
    exact forall_mem_append.mpr ⟨hs.transported, forall_mem_singleton.mpr
      fun _ houtcome => absurd houtcome not_mem_nil⟩
  case ask start position active entry at_leg asks => exact ⟨hs, only hop⟩
  case spare => exact ⟨hs, only hop⟩
  case scanned start position active last =>
    refine ⟨hs, only ⟨hop, fun hcover hnil => hfinds hcover last ?_, ?_⟩⟩
    · exact map_eq_nil_iff.mp hnil
    · intro slot hslot error herror
      obtain ⟨leg, -, rfl⟩ := mem_map.mp hslot
      cases herror
  case answer start before after leg outcome failures =>
    obtain ⟨hopened, -, hslots⟩ := hop
    refine ⟨hs, only ⟨hopened, fun _ => by simp, ?_⟩⟩
    intro slot hslot
    rcases mem_append.mp hslot with hbefore | hrest
    · exact hslots slot (mem_append_left _ hbefore)
    · rcases mem_cons.mp hrest with rfl | hafter
      · exact fun error herror => (failures error (Option.some.inj herror)).2
      · exact hslots slot (mem_append_right _ (mem_cons_of_mem _ hafter))
  case joined start outcomes =>
    obtain ⟨hopened, hasked, hslots⟩ := hop
    refine ⟨hs, only ⟨hopened, fun hcover hnil => hasked hcover ?_, ?_⟩⟩
    · rw [nil_append] at hnil
      rw [hnil, map_nil]
    · rw [nil_append]
      intro outcome houtcome error herror
      exact hslots _ (mem_map_of_mem houtcome) error (congrArg some herror)
  case foldSuccess start tally leg answer outcomes =>
    obtain ⟨hopened, -, htransport⟩ := hop
    have hrecord := hs.record leg (f := recordLegSuccess) fun _ => rfl
    obtain ⟨htally, hrest⟩ := transported_append.mp htransport
    refine ⟨hrecord, only ⟨hopened, fun _ => by simp [Tally.success], ?_⟩⟩
    exact transported_append.mpr ⟨transported_append.mpr ⟨htally, transported_success⟩,
      (forall_mem_cons.mp hrest).2⟩
  case foldFailure start tally leg error outcomes goesOn =>
    obtain ⟨hopened, -, htransport⟩ := hop
    have hrecord := hs.record leg (f := recordLegFailure) fun _ => rfl
    obtain ⟨htally, hrest⟩ := transported_append.mp htransport
    obtain ⟨hfailure, hrest⟩ := forall_mem_cons.mp hrest
    refine ⟨hrecord, only ⟨hopened, fun _ => by simp [Tally.failure], ?_⟩⟩
    exact transported_append.mpr
      ⟨transported_append.mpr ⟨htally, transported_failure (hfailure error rfl)⟩, hrest⟩
  case foldCancelled start tally leg error outcomes cancelled =>
    obtain ⟨hopened, hasked, htransport⟩ := hop
    exact ⟨hs.finish hopened htransport hasked _, by simp⟩
  case extracted start tally =>
    obtain ⟨hopened, hasked, htransport⟩ := hop
    rw [append_nil] at hasked htransport
    exact ⟨hs.finish hopened htransport hasked _, by simp⟩
  case askRaster start position tally entry at_leg asks => exact ⟨hs, only hop⟩
  case spareRaster => exact ⟨hs, only hop⟩
  case rendered start position tally answer =>
    have hrecord := hs.record position (f := recordLegSuccess) fun _ => rfl
    exact ⟨hrecord.finish hop.1 (transported_append.mpr ⟨hop.2, transported_success⟩)
      (fun _ => by simp) _, by simp⟩
  case renderFailure start position tally error failure goesOn =>
    have hrecord := hs.record position (f := recordLegFailure) fun _ => rfl
    exact ⟨hrecord, only ⟨hop.1, transported_append.mpr
      ⟨hop.2, transported_failure failure.2⟩⟩⟩
  case renderCancelled start position tally error failure cancelled =>
    exact ⟨hs.finish hop.1 (transported_append.mpr ⟨hop.2, transported_failure failure.2⟩)
      (fun _ => by simp) _, by simp⟩
  case notRendered start position tally last =>
    exact ⟨hs.finish hop.1 hop.2 (fun hcover => hfinds hcover last) _, by simp⟩

end

/-! ### Runs -/

variable {hasLines : A → Bool} {c : Config (State A) Unit (Op A)}

/-- A served configuration is one that the source reaches. -/
theorem Served.reachable (h : Served hasLines c) : Reachable hasLines c := by
  obtain ⟨legs, threads, hrun⟩ := h
  refine ⟨legs, threads, ?_⟩
  induction hrun with
  | refl => exact .refl
  | step _ _ step ih => exact .step ih trivial (Step.mono_exec (fun _ h => h.1) step)

theorem Served.serving (h : Served hasLines c) :
  c.shared.Serving ∧ ∀ op ∈ c.ops, op.Serving c.shared
  := by
  obtain ⟨legs, threads, hrun⟩ := h
  apply hrun.invariant (P := fun c => c.shared.Serving ∧ ∀ op ∈ c.ops, op.Serving c.shared)
  · constructor
    · exact ⟨fun _ => rfl, fun _ _ => rfl, fun _ hcall => absurd hcall not_mem_nil,
        fun _ _ hcall => absurd hcall not_mem_nil⟩
    · intro op hop
      have hcaller : op = .caller := by
        revert hop
        simp +contextual [Config.ops, start]
      rw [hcaller]
      trivial
  · rintro c c' op ⟨hs, hops⟩ hfinds hstep
    obtain ⟨next, rest, hexec, hperm, hperm'⟩ := hstep.ops_perm
    have hop := hops op (hperm.mem_iff.mpr mem_cons_self)
    obtain ⟨hs', hnext⟩ := hexec.serving hs hop hfinds
    refine ⟨hs', fun op' hop' => ?_⟩
    rcases mem_append.mp (hperm'.mem_iff.mp hop') with hnew | hold
    · exact hnext op' hnew
    · exact (hops op' (hperm.mem_iff.mpr (mem_cons_of_mem _ hold))).mono hexec.keeps

/-- In a run whose calls find a leg to ask, an outage makes no page empty and no document invalid:
of an open source, every call for a page that a leg has is outspoken. -/
theorem Served.outspoken (h : Served hasLines c) (hopened : c.shared.opened = true) :
  ∀ call ∈ c.shared.finished, c.shared.Covers call.start → call.Outspoken
  := by
  intro call hcall hcover
  obtain ⟨hs, -⟩ := h.serving
  exact (h.reachable.sound.1.isolated call hcall).speaks
    (hs.asked hopened call hcall hcover) (hs.transported call hcall)

/-! ### A leg that stays away -/

/-- A backend that cannot be reached. -/
def unreachable : Failure :=
  ⟨"PDF backend parse failed: connection refused", some .unavailable⟩

theorem transport_unreachable : unreachable.Transport := by
  simp [Failure.Transport, Failure.Plain, Failure.isCancelled, unreachable]

/-- One thread over a source with a single leg. -/
def single (s : State Unit) (code : List (Op Unit)) : Config (State Unit) Unit (Op Unit) :=
  ⟨s, [⟨(), code⟩]⟩

/-- A source that is open, with a single leg. -/
structure OpenWith (entry : Entry) (s : State Unit) : Prop where
  opened : s.opened = true
  fine : s.openFailure = none
  sources : s.sources = [entry]

/-- Runs in which every call finds a leg. -/
abbrev ServedRun : Config (State Unit) Unit (Op Unit) → Config (State Unit) Unit (Op Unit) → Prop :=
  RunsTo (fun c => Exec Failure.Transport (fun _ => true) c.shared)
    (fun c op => op.Finds c.shared)

variable {c₀ : Config (State Unit) Unit (Op Unit)} {s : State Unit} {entry : Entry}

/-- A call for the text of the first page asks the leg, which is away. -/
theorem failingScan (h : OpenWith entry s) (hpages : 1 ≤ entry.pages)
    (henabled : entry.disabled = false) {dropped : List ℕ}
    (run : ServedRun c₀ (single s [.scan ⟨.extract 1, dropped⟩ 0 [], .caller])) :
  ∃ s', OpenWith (recordLegFailure entry) s' ∧ ServedRun c₀ (single s' [.caller]) ∧
    ∃ call ∈ s'.finished, call.start.request = .extract 1
  := by
  obtain ⟨hopened, hfine, hsources⟩ := h
  have hleg : s.sources[0]? = some entry := by simp [hsources]
  have hlast : s.sources[1]? = none := by simp [hsources]
  have hasks : CallStart.asks ⟨.extract 1, dropped⟩ entry = true := by
    simp [CallStart.asks, Request.page, hpages, henabled]
  have hasked := run.andThen 0 (.ask hleg hasks) rfl
    fun _ hnone => absurd (hleg.symm.trans hnone) (by simp)
  have hscanned := hasked.andThen 0 (.scanned hlast) rfl fun _ _ => by simp
  have hanswered := hscanned.andThen 0
    (@Exec.answer _ _ _ _ _ [] [] 0 (.error unreachable)
      fun error herror => Except.error.inj herror ▸ transport_unreachable)
  have hjoined := hanswered.andThen 0 (@Exec.joined _ _ _ _ _ [(0, .error unreachable)])
  have hfolded := hjoined.andThen 0 (.foldFailure rfl)
  have hfinished := hfolded.andThen 0 .extracted
  refine ⟨(s.record 0 recordLegFailure).finish ⟨.extract 1, dropped⟩ [(0, .error unreachable)]
      (.error unreachable), ⟨hopened, hfine, ?_⟩, hfinished, _,
    mem_append_right _ (mem_singleton_self _), rfl⟩
  change s.sources.modify 0 recordLegFailure = _
  rw [hsources]
  rfl

/-- Another such call. -/
theorem failingCall (h : OpenWith entry s) (hpages : 1 ≤ entry.pages)
    (henabled : entry.disabled = false) (run : ServedRun c₀ (single s [.caller])) :
  ∃ s', OpenWith (recordLegFailure entry) s' ∧ ServedRun c₀ (single s' [.caller])
  := by
  have hcalled := run.andThen 0 (.call (.extract 1))
  have hopened := hcalled.andThen 0 (.openedAlready h.opened h.fine)
  obtain ⟨s', hs', hrun, -⟩ := failingScan h hpages henabled hopened
  exact ⟨s', hs', hrun⟩

/-- The first call opens the source. -/
theorem firstCall :
  ∃ s', OpenWith (recordLegFailure { pages := 1 }) s' ∧
    ServedRun (start Unit 1 1) (single s' [.caller]) ∧
      ∃ call ∈ s'.finished, call.start.request = .extract 1
  := by
  have hstart : ServedRun (start Unit 1 1) (start Unit 1 1) := .refl
  have hcalled := hstart.andThen 0 (.call (.extract 1))
  have hopened := hcalled.andThen 0
    (@Exec.opens _ _ _ _ _ [.ok 1] [{ pages := 1 }] rfl rfl rfl (by simp) rfl)
  exact failingScan ⟨rfl, rfl, rfl⟩ (le_refl _) rfl hopened

/-- A call that fails as the only leg does. -/
theorem Served.outspoken_oneCall :
  ∃ c : Config (State Unit) Unit (Op Unit), ∃ call ∈ c.shared.finished,
    call.start.request = .extract 1 ∧ call.Outspoken
  := by
  obtain ⟨s, hs, hrun, call, hcall, hrequest⟩ := firstCall
  have hcover : s.Covers call.start :=
    ⟨_, hs.sources ▸ List.mem_singleton_self _, by rw [hrequest]; exact le_refl _⟩
  exact ⟨single s [.caller], call, hcall, hrequest,
    Served.outspoken ⟨1, 1, hrun⟩ hs.opened call hcall hcover⟩

/-- After three failures of its only leg, a source finds no text layer on a page that the leg has,
and calls the document invalid when it is to render it. -/
theorem not_outspoken_dropped :
  ¬ ∀ c : Config (State Unit) Unit (Op Unit),
    (∃ legs threads, Reaches (fun c => Exec Failure.Transport (fun _ : Unit => true) c.shared)
      (start Unit legs threads) c) → c.shared.opened = true →
        ∀ call ∈ c.shared.finished, c.shared.Covers call.start → call.Outspoken
  := by
  intro hall
  obtain ⟨s₁, hs₁, hrun₁, -⟩ := firstCall
  obtain ⟨s₂, hs₂, hrun₂⟩ := failingCall hs₁ (le_refl _) rfl hrun₁
  obtain ⟨s₃, hs₃, hrun₃⟩ := failingCall hs₂ (le_refl _) rfl hrun₂
  have hleg : s₃.sources[0]? = some (recordLegFailure (recordLegFailure
      (recordLegFailure { pages := 1 }))) := by simp [hs₃.sources]
  have hlast : s₃.sources[1]? = none := by simp [hs₃.sources]
  have hcalled := hrun₃.reaches.andThen 0 (.call (.extract 1))
  have hopened := hcalled.andThen 0 (.openedAlready hs₃.opened hs₃.fine)
  have hspared := hopened.andThen 0 (.spare hleg rfl)
  have hscanned := hspared.andThen 0 (.scanned hlast)
  have hjoined := hscanned.andThen 0 (@Exec.joined _ _ _ _ _ [])
  have hfinished := hjoined.andThen 0 .extracted
  have hcall := hall _ ⟨1, 1, hfinished⟩ hs₃.opened _
    (List.mem_append_right _ (List.mem_singleton_self _))
    ⟨_, List.mem_of_getElem? hleg, le_refl _⟩
  obtain ⟨leg, answer, hanswer⟩ := hcall.missing rfl
  cases hanswer

end GRParse.Pdf
