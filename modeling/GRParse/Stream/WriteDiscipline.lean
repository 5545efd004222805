import GRParse.Stream.Reactor

/-!
# The reactor and the wire

What the reactor does is in order on the wire: it writes one event at a time, and finishes
once, with OK only when the last event it wrote is the terminal one, and the only one.  One
call breaks this.  `on_page` does not ask whether the stream is finishing, so a page that comes
late may put an event behind the terminal one, or behind the end of the stream.
-/

namespace GRParse

open Stream List

variable {π : Passes}

/-- The last of the events is terminal, and no other is. -/
def completeLast (events : List (ArenaEvent π)) : Bool :=
  match events.reverse with
  | last :: before => last.isComplete && before.all fun event => !event.isComplete
  | [] => false

@[simp]
theorem completeLast_append_singleton (events : List (ArenaEvent π)) (last : ArenaEvent π) :
  completeLast (events ++ [last]) =
    (last.isComplete && events.all fun event => !event.isComplete)
  := by
  simp [completeLast]

/-- A stream may end with any failure, but with OK only behind its terminal event. -/
def mayFinish (written : List (ArenaEvent π)) (status : Status) : Bool :=
  !status.ok || completeLast written

/-- What of the reactor the wire depends on. -/
structure Outgoing (π : Passes) where
  events : List (ArenaEvent π)
  writeInFlight : Bool
  finishRequested : Bool
  finishStarted : Bool
  finishStatus : Status

/-- What is on the wire is what the reactor takes to be. -/
structure Outgoing.OnWire (o : Outgoing π) (wire : Wire (ArenaEvent π)) : Prop where
  /-- The event being written is at the front of the queue. -/
  writing : wire.writing = if o.writeInFlight then o.events.head? else none
  front : o.writeInFlight = true → o.events ≠ []
  finished : wire.finished = o.finishStarted
  /-- Nothing is left to be written when the stream is finished. -/
  quiet : o.finishStarted = true → o.finishRequested = true ∧ o.events = []

/-- The terminal event is queued when the stream is to end with OK, and then it is the last. -/
structure Outgoing.Ends (o : Outgoing π) (wire : Wire (ArenaEvent π)) : Prop where
  pending : o.finishRequested = false → ∀ event ∈ wire.written ++ o.events, ¬ event.isComplete
  complete : o.finishRequested = true → o.finishStatus.ok = true →
    completeLast (wire.written ++ o.events) = true

variable {wire : Wire (ArenaEvent π)}

/-- An event put into the queue leaves the front where it is. -/
theorem Outgoing.OnWire.push {o : Outgoing π} (h : o.OnWire wire)
    (hstarted : o.finishStarted = false) (event : ArenaEvent π) :
  Outgoing.OnWire { o with events := o.events ++ [event] } wire
  := by
  constructor
  case writing =>
    rw [h.writing]
    cases hwriting : o.writeInFlight with
    | false => rfl
    | true =>
      cases hevents : o.events with
      | nil => exact absurd hevents (h.front hwriting)
      | cons front events => rfl
  case front => exact fun _ => concat_ne_nil _ _
  case finished => exact h.finished
  case quiet => exact fun hquiet => absurd (hstarted ▸ hquiet) (by simp)

/-- An event that is being written is at the front. -/
theorem Outgoing.OnWire.exists_front {o : Outgoing π} (h : o.OnWire wire)
    (hwriting : o.writeInFlight = true) :
  ∃ front rest, o.events = front :: rest ∧ wire.writing = some front ∧ o.finishStarted = false
  := by
  cases hevents : o.events with
  | nil => exact absurd hevents (h.front hwriting)
  | cons front rest =>
    refine ⟨front, rest, rfl, ?_, ?_⟩
    · rw [h.writing, hwriting, hevents]
      rfl
    · by_contra hstarted
      have := (h.quiet (by simpa using hstarted)).2
      simp [hevents] at this

/-- Nothing is written and nothing is finished. -/
theorem Outgoing.OnWire.of_idle {o : Outgoing π} (hwriting : o.writeInFlight = false)
    (hstarted : o.finishStarted = false) (hwire : wire.writing = none)
    (hfinished : wire.finished = false) :
  o.OnWire wire
  := by
  constructor <;> simp [hwriting, hstarted, hwire, hfinished]

namespace Reactor

def outgoing (s : Reactor π) : Outgoing π :=
  ⟨s.events, s.writeInFlight, s.finishRequested, s.finishStarted, s.finishStatus⟩

/-- The reactor has kept to the write discipline. -/
def Disciplined (s : Reactor π) : Prop :=
  ∃ wire, Wire.run mayFinish s.history = some wire ∧ s.outgoing.OnWire wire ∧
    s.outgoing.Ends wire

/-- Whether the terminal event or the end of the stream is behind us. -/
def Late (s : Reactor π) : Prop :=
  s.finishStarted = true ∨ s.finishRequested = true ∧ s.finishStatus.ok = true

/-- Whether a page that is delivered puts an event into the queue: the call is not cancelled,
there is room, and the page whose turn it is has been delivered and can be encoded. -/
def Encodes (s : Reactor π) (pageNumber : ℤ) (page : π.OcrPage) : Prop :=
  s.clientCancelled = false ∧ s.bufferFull = false ∧
    ∃ next, (s.park pageNumber page).completedPages.lookup s.nextPage = some next ∧
      (π.appendPageData next s.nextPage s.assemblyCursor s.assemblyWarnings).2.2.isSome

/-- A write can only be done when it is outstanding. -/
def Possible (s : Reactor π) : Call π → Prop
  | .writeDone _ => s.writeInFlight = true
  | _ => True

/-- A page must not come late. -/
def InTime (s : Reactor π) : Call π → Prop
  | .page pageNumber page => s.Late → ¬ s.Encodes pageNumber page
  | call => s.Possible call

/-- What the reactor did is in order on the wire, and the event that is being written is at
the front of the queue. -/
def InOrder (s : Reactor π) : Prop :=
  ∃ wire, Wire.run mayFinish s.history = some wire ∧
    ∀ event, wire.writing = some event → s.events.head? = some event

/-! ### Writing and finishing -/

variable {s : Reactor π}

theorem Disciplined.of_fresh (h : s.Fresh) :
  s.Disciplined
  := by
  use {}
  rw [h.history]
  refine ⟨rfl, ?_, ?_⟩ <;> constructor <;>
    simp [outgoing, h.writeInFlight, h.finishStarted, h.finishRequested, h.events]

/-- Calls on the ticket are not on the wire. -/
theorem Disciplined.record_call (h : s.Disciplined) (call : TicketCall) :
  (s.record (.call call)).Disciplined
  := by
  obtain ⟨wire, hrun, hwire⟩ := h
  refine ⟨wire, ?_, hwire⟩
  simp [record, Wire.run_append_singleton, hrun, Wire.step]

theorem Disciplined.cancelTicket (h : s.Disciplined) :
  s.cancelTicket.Disciplined
  := by
  unfold Reactor.cancelTicket
  split
  · exact h
  · exact h.record_call .cancel

/-- The pump starts a write when none is outstanding, or finishes the stream when nothing is
left to be written. -/
theorem Disciplined.pump (h : s.Disciplined) :
  s.pump.Disciplined
  := by
  obtain ⟨wire, hrun, hwire, hends⟩ := h
  unfold Reactor.pump
  split
  next event rest hwriting hevents =>
    have hfinished : s.finishStarted = false := by
      by_contra hstarted
      have := (hwire.quiet (by simpa [outgoing] using hstarted)).2
      simp [outgoing, hevents] at this
    refine ⟨{ wire with writing := some event }, ?_, ?_, hends.pending, hends.complete⟩
    · simp [record, Wire.run_append_singleton, hrun, Wire.step, hwire.writing, outgoing, hwriting,
        hwire.finished, hfinished]
    · constructor
      case writing => simp [outgoing, record, hevents]
      case front => simp [outgoing, record, hevents]
      case finished => exact hwire.finished
      case quiet => exact hwire.quiet
  next hwriting hevents =>
    split
    next hfinish =>
      simp only [Bool.and_eq_true, Bool.not_eq_true'] at hfinish
      have hmay : mayFinish wire.written s.finishStatus = true := by
        have := hends.complete hfinish.1
        simp only [outgoing, hevents, append_nil] at this
        cases hok : s.finishStatus.ok <;> simp [mayFinish, hok, this]
      refine ⟨{ wire with finished := true }, ?_, ?_, hends.pending, hends.complete⟩
      · simp [record, Wire.run_append_singleton, hrun, Wire.step, hwire.writing, outgoing,
          hwriting, hwire.finished, hfinish.2, hmay]
      · constructor
        case writing => exact hwire.writing
        case front => exact hwire.front
        case finished => rfl
        case quiet => exact fun _ => ⟨hfinish.1, hevents⟩
    next => exact ⟨wire, hrun, hwire, hends⟩
  next => exact ⟨wire, hrun, hwire, hends⟩

/-- A failure may be asked for whatever is queued, until the stream is finished. -/
theorem disciplined_requestFinish (hrun : Wire.run mayFinish s.history = some wire)
    (hwire : s.outgoing.OnWire wire) (hstarted : s.finishStarted = false) {status : Status}
    (hfailure : status.ok = false) :
  (s.requestFinish status).Disciplined
  := by
  have hfailed : Disciplined { s with finishRequested := true, finishStatus := status } := by
    refine ⟨wire, hrun, ?_, ?_⟩ <;> constructor
    case writing => exact hwire.writing
    case front => exact hwire.front
    case finished => exact hwire.finished
    case quiet => exact fun hquiet => absurd hquiet (by simp [outgoing, hstarted])
    case pending => exact fun hpending => absurd hpending (by simp [outgoing])
    case complete => exact fun _ hok => absurd hok (by simp [outgoing, hfailure])
  rw [Reactor.requestFinish, if_neg (by simp [hstarted])]
  split
  next hrequested =>
    split
    next =>
      rw [← hrequested] at hfailed
      exact hfailed.cancelTicket.pump
    next hok =>
      have hends : s.outgoing.Ends wire := by
        constructor
        case pending => exact fun hpending => absurd hrequested (by simpa [outgoing] using hpending)
        case complete =>
          intro _ hdone
          simp only [hfailure, Bool.not_false, Bool.and_true, Bool.not_eq_true] at hok
          exact absurd hdone (by simp [outgoing, hok])
      exact Disciplined.pump ⟨wire, hrun, hwire, hends⟩
  next =>
    simp only [hfailure, Bool.false_eq_true, if_false]
    exact hfailed.cancelTicket.pump

theorem Disciplined.requestFinish (h : s.Disciplined) {status : Status}
    (hfailure : status.ok = false) :
  (s.requestFinish status).Disciplined
  := by
  cases hstarted : s.finishStarted with
  | true =>
    rw [Reactor.requestFinish, if_pos hstarted]
    exact h
  | false =>
    obtain ⟨wire, hrun, hwire, -⟩ := h
    exact disciplined_requestFinish hrun hwire hstarted hfailure

/-- Before the terminal event other events may be queued. -/
theorem Disciplined.pushEvent (h : s.Disciplined) (hlate : ¬ s.Late) {payload : Payload π}
    (hpayload : ∀ complete, payload ≠ .complete complete) (schedulerCredit : Bool) :
  (s.pushEvent payload schedulerCredit).Disciplined
  := by
  obtain ⟨wire, hrun, hwire, hends⟩ := h
  obtain ⟨hstarted, hok⟩ := not_or.mp hlate
  let event : ArenaEvent π :=
    ⟨s.allocated, s.documentId, s.totalPages, payload, schedulerCredit⟩
  have hother : ¬ event.isComplete := by
    cases payload with
    | complete complete => exact absurd rfl (hpayload complete)
    | page | collectorDocument | repair => simp [event, ArenaEvent.isComplete]
  refine ⟨wire, hrun, hwire.push (by simpa [outgoing] using hstarted) event, ?_⟩
  constructor
  case pending =>
    intro hrequested other hmem
    have hmem : other ∈ (wire.written ++ s.events) ++ [event] := by
      rw [append_assoc]
      exact hmem
    obtain hold | hnew := mem_append.mp hmem
    · exact hends.pending hrequested other hold
    · rwa [mem_singleton.mp hnew]
  case complete => exact fun hrequested hdone => absurd ⟨hrequested, hdone⟩ hok

/-- The terminal event is queued, and with it the end of the stream. -/
theorem Disciplined.pushComplete (h : s.Disciplined) (hrequested : s.finishRequested = false)
    (complete : DocumentComplete π) :
  ((s.pushEvent (.complete complete) false).requestFinish {}).Disciplined
  := by
  obtain ⟨wire, hrun, hwire, hends⟩ := h
  have hstarted : s.finishStarted = false := by
    by_contra hstarted
    have := (hwire.quiet (by simpa [outgoing] using hstarted)).1
    simp [outgoing, hrequested] at this
  let event : ArenaEvent π := ⟨s.allocated, s.documentId, s.totalPages, .complete complete, false⟩
  have hqueued : Disciplined { s.pushEvent (.complete complete) false with
      finishRequested := true, finishStatus := {} } := by
    have hpush := hwire.push hstarted event
    refine ⟨wire, hrun, ⟨hpush.writing, hpush.front, hpush.finished, ?_⟩, ?_⟩
    · exact fun hquiet => absurd hquiet (by simp [outgoing, Reactor.pushEvent, hstarted])
    · constructor
      case pending => exact fun hpending => absurd hpending (by simp [outgoing])
      case complete =>
        intro _ _
        have hpending : (wire.written ++ s.events).all (fun event => !event.isComplete) = true :=
          all_eq_true.mpr fun other hother => by
            simpa using hends.pending hrequested other hother
        have hlast := completeLast_append_singleton (wire.written ++ s.events) event
        rw [append_assoc, hpending] at hlast
        exact hlast
  rw [Reactor.requestFinish, if_neg (by simp [Reactor.pushEvent, hstarted]),
    if_neg (by simp [Reactor.pushEvent, hrequested])]
  exact hqueued.pump

/-! ### The handlers -/

theorem Disciplined.onWriteDone (h : s.Disciplined) (hwriting : s.writeInFlight = true)
    (ok : Bool) :
  (s.onWriteDone ok).Disciplined
  := by
  obtain ⟨wire, hrun, hwire, hends⟩ := h
  obtain ⟨front, rest, hevents, hfront, hstarted⟩ := hwire.exists_front hwriting
  have hevents : s.events = front :: rest := hevents
  have hfinished : wire.finished = false := hwire.finished.trans hstarted
  have hpopped : Wire.run mayFinish (s.popEvent front rest ok).history =
      some { wire with
        writing := none
        written := if ok then wire.written ++ [front] else wire.written } := by
    simp [popEvent, record, Wire.run_append_singleton, hrun, Wire.step, hfront]
  simp only [Reactor.onWriteDone, hevents]
  cases ok with
  | true =>
    have hdone : (s.popEvent front rest true).Disciplined := by
      have hqueue : (wire.written ++ [front]) ++ rest = wire.written ++ s.outgoing.events := by
        simp [outgoing, hevents]
      refine ⟨_, hpopped, .of_idle rfl hstarted rfl hfinished, ?_, ?_⟩
      · intro hrequested event hevent
        exact hends.pending hrequested event (hqueue ▸ hevent)
      · intro hrequested hok
        exact (congrArg completeLast hqueue).trans (hends.complete hrequested hok)
    simp only [if_true]
    split
    · exact (hdone.record_call .release).pump
    · exact hdone.pump
  | false =>
    exact disciplined_requestFinish
      (s := { s.popEvent front rest false with
        clientCancelled := true, events := [], bufferedPages := 0 })
      hpopped (.of_idle rfl hstarted rfl hfinished) hstarted (by decide)

/-- What runs on the fold may queue a repair event before the terminal one. -/
theorem Disciplined.emitFoldDelta (h : s.Disciplined) (hrequested : s.finishRequested = false)
    (hlate : ¬ s.Late) (levels : Containers.Map String ℤ) :
  (s.emitFoldDelta levels).Disciplined ∧ (s.emitFoldDelta levels).finishRequested = false
  := by
  unfold Reactor.emitFoldDelta
  split
  next => exact ⟨h, hrequested⟩
  next =>
    dsimp only
    split
    next =>
      split
      next =>
        have hsettled : Disciplined { s with foldSettled := true } := h
        exact ⟨hsettled.pushEvent hlate (fun _ => by simp) false, hrequested⟩
      next => exact ⟨h, hrequested⟩
    next => exact ⟨h, hrequested⟩

/-- Nothing is late before the end of the stream is asked for. -/
theorem Disciplined.not_late (h : s.Disciplined) (hrequested : s.finishRequested = false) :
  ¬ s.Late
  := by
  rintro (hstarted | ⟨hrequested', -⟩)
  · obtain ⟨wire, hrun, hwire, hends⟩ := h
    have : s.finishRequested = true := (hwire.quiet hstarted).1
    simp [hrequested] at this
  · simp [hrequested] at hrequested'

theorem Disciplined.partDone (h : s.Disciplined) :
  s.partDone.Disciplined
  := by
  have hlanded : Disciplined { s with pendingParts := s.pendingParts - 1 } := h
  unfold Reactor.partDone
  dsimp only
  split
  next => exact hlanded
  next hlast =>
    have hrequested : s.finishRequested = false := by
      cases hrequested : s.finishRequested with
      | true => simp [hrequested] at hlast
      | false => rfl
    split
    next =>
      apply hlanded.requestFinish
      split
      next => rfl
      next hfailure => simpa using hfailure
    next =>
      obtain ⟨hdelta, hrequested'⟩ :=
        hlanded.emitFoldDelta hrequested (hlanded.not_late hrequested) _
      exact hdelta.pushComplete hrequested' _

/-- Dropping what waits keeps the event that is being written. -/
theorem Disciplined.onWire_dropWaiting (h : s.Disciplined) :
  ∃ wire, Wire.run mayFinish s.dropWaiting.history = some wire ∧
    s.dropWaiting.outgoing.OnWire wire
  := by
  obtain ⟨wire, hrun, hwire, hends⟩ := h
  use wire
  unfold Reactor.dropWaiting
  split
  next front rest hwriting hevents =>
    obtain ⟨front', rest', hevents', hfront, hstarted⟩ := hwire.exists_front hwriting
    obtain ⟨rfl, rfl⟩ := cons.inj (hevents.symm.trans hevents')
    refine ⟨hrun, ?_, ?_, hwire.finished, ?_⟩
    · exact hfront.trans (by simp [outgoing, hwriting])
    · exact fun _ => cons_ne_nil _ _
    · exact fun hquiet => absurd (hstarted ▸ hquiet) (by simp)
  next hnot =>
    have hwriting : s.writeInFlight = false := by
      by_contra hwriting
      obtain ⟨front, rest, hevents, -⟩ := hwire.exists_front (by simpa [outgoing] using hwriting)
      exact hnot front rest (by simpa using hwriting) hevents
    refine ⟨hrun, ?_, ?_, hwire.finished, fun hquiet => ⟨(hwire.quiet hquiet).1, rfl⟩⟩
    · exact hwire.writing.trans (by simp [outgoing, hwriting])
    · exact fun hwriting' => absurd (hwriting.symm.trans hwriting') (by simp)

@[simp]
theorem dropWaiting_finishStarted :
  s.dropWaiting.finishStarted = s.finishStarted
  := by
  unfold dropWaiting
  split <;> rfl

/-- With nothing queued there is nothing to drop. -/
theorem dropWaiting_outgoing (hevents : s.events = []) :
  s.dropWaiting.outgoing = s.outgoing ∧ s.dropWaiting.history = s.history
  := by
  simp [dropWaiting, hevents, outgoing]

theorem Disciplined.overflow (h : s.Disciplined) :
  s.overflow.Disciplined
  := by
  cases hstarted : s.finishStarted with
  | false =>
    obtain ⟨wire, hrun, hwire⟩ := h.onWire_dropWaiting
    exact disciplined_requestFinish hrun hwire (by simpa using hstarted) (by decide)
  | true =>
    -- the stream is finished, and asking for the end again does nothing
    obtain ⟨wire, hrun, hwire, hends⟩ := h
    obtain ⟨houtgoing, hhistory⟩ := dropWaiting_outgoing (hwire.quiet hstarted).2
    have hsame : s.dropWaiting.Disciplined := by
      rw [Disciplined, houtgoing, hhistory]
      exact ⟨wire, hrun, hwire, hends⟩
    exact hsame.requestFinish (by decide)

/-- Encoding a page queues its event. -/
theorem Disciplined.encodePage (h : s.Disciplined) (hlate : ¬ s.Late) (page : π.OcrPage) :
  (s.encodePage page).1.Disciplined ∧ ¬ (s.encodePage page).1.Late
  := by
  unfold Reactor.encodePage
  dsimp only
  split
  next => exact ⟨h, hlate⟩
  next => exact ⟨h.pushEvent hlate (fun _ => by simp) true, hlate⟩

theorem Disciplined.encodeReady (h : s.Disciplined) (hlate : ¬ s.Late) (rounds : ℕ) :
  (s.encodeReady rounds).1.Disciplined
  := by
  induction rounds generalizing s with
  | zero => exact h
  | succ rounds ih =>
    unfold Reactor.encodeReady
    split
    next => exact h
    next page _ =>
      obtain ⟨hencoded, hlate⟩ := h.encodePage hlate page
      dsimp only
      split
      · exact ih hencoded hlate
      · exact hencoded

/-- A page that is not encoded leaves the queue as it is. -/
theorem Disciplined.encodeReady_stuck (h : s.Disciplined) {pageNumber : ℤ} {page : π.OcrPage}
    (hopen : s.clientCancelled = false) (hroom : s.bufferFull = false)
    (hstuck : ¬ s.Encodes pageNumber page) (rounds : ℕ) :
  ((s.park pageNumber page).encodeReady rounds).1.Disciplined
  := by
  cases rounds with
  | zero => exact h
  | succ rounds =>
    unfold Reactor.encodeReady
    split
    next => exact h
    next next hnext =>
      cases hdata : (π.appendPageData next s.nextPage s.assemblyCursor s.assemblyWarnings).2.2 with
      | none =>
        simp only [Reactor.encodePage, Reactor.park, hdata]
        exact h
      | some data => exact absurd ⟨hopen, hroom, next, hnext, by simp [hdata]⟩ hstuck

theorem Disciplined.onPage (h : s.Disciplined) (pageNumber : ℤ) (page : π.OcrPage)
    (hlate : s.Late → ¬ s.Encodes pageNumber page) :
  (s.onPage pageNumber page).1.Disciplined
  := by
  unfold Reactor.onPage
  split
  next => exact h
  next hopen =>
    split
    next => exact h.overflow
    next hroom =>
      have hparked : (s.park pageNumber page).Disciplined := h
      have hencoded : ((s.park pageNumber page).encodeReady
          (s.park pageNumber page).completedPages.keys.card).1.Disciplined := by
        by_cases hs : s.Late
        · exact h.encodeReady_stuck (by simpa using hopen) (by simpa using hroom) (hlate hs) _
        · exact hparked.encodeReady hs _
      dsimp only
      split
      · exact hencoded.pump
      · exact hencoded

/-- Page events are queued one after the other. -/
theorem Disciplined.foldl_pushEvent (h : s.Disciplined) (hlate : ¬ s.Late)
    {push : Reactor π → PageData → Reactor π}
    (hpush : ∀ t page, (push t page).outgoing = (t.pushEvent (.page page) false).outgoing ∧
      (push t page).history = t.history)
    (pages : List PageData) :
  (pages.foldl push s).Disciplined ∧ ¬ (pages.foldl push s).Late
  := by
  induction pages generalizing s with
  | nil => exact ⟨h, hlate⟩
  | cons page pages ih =>
    obtain ⟨houtgoing, hhistory⟩ := hpush s page
    apply ih
    · have hqueued : (s.pushEvent (.page page) false).Disciplined :=
        h.pushEvent hlate (fun _ => by simp) false
      rw [Disciplined, houtgoing, hhistory]
      exact hqueued
    · have hstarted := congrArg Outgoing.finishStarted houtgoing
      have hrequested := congrArg Outgoing.finishRequested houtgoing
      have hstatus := congrArg Outgoing.finishStatus houtgoing
      simp only [outgoing, Reactor.pushEvent] at hstarted hrequested hstatus
      rwa [Late, hstarted, hrequested, hstatus]

theorem Disciplined.onStreamedPage (h : s.Disciplined) (slice : PdfPageSlice) :
  (s.onStreamedPage slice).1.Disciplined
  := by
  unfold Reactor.onStreamedPage
  split
  next => exact h
  next hopen =>
    have hlate : ¬ s.Late := h.not_late (by
      cases hrequested : s.finishRequested with
      | true => simp [hrequested] at hopen
      | false => rfl)
    dsimp only
    refine Disciplined.pump ?_
    refine (Disciplined.foldl_pushEvent ?_ ?_ ?_ _).1
    · exact h
    · exact hlate
    · exact fun t page => ⟨rfl, rfl⟩

/-- The events of a collector's document are queued before the terminal one. -/
theorem Disciplined.emitCollector (h : s.Disciplined) (hlate : ¬ s.Late)
    (collector : Collector) (document : Document) (renamed : RefMap) (warnings : List String)
    (findings : List Protobuf.Message) (pagesStreamed : Bool) :
  (s.emitCollector collector document renamed warnings findings pagesStreamed).Disciplined
  := by
  unfold Reactor.emitCollector
  extract_lets pages delta settled paged repaired _ sent
  have hpaged : paged.Disciplined ∧ ¬ paged.Late :=
    Disciplined.foldl_pushEvent (s := settled) h hlate (fun t page => ⟨rfl, rfl⟩) pages
  have hrepaired : repaired.Disciplined ∧ ¬ repaired.Late := by
    cases hdelta : delta with
    | none => simpa [repaired, hdelta] using hpaged
    | some delta =>
      simp only [repaired, hdelta]
      exact ⟨hpaged.1.pushEvent hpaged.2 (fun _ => by simp) false, hpaged.2⟩
  exact hrepaired.1.pushEvent hrepaired.2 (fun _ => by simp) false

theorem Disciplined.onCollectorDone (h : s.Disciplined) (collector : Collector)
    (outcome : CollectorOutcome) (pagesStreamed : Bool) :
  (s.onCollectorDone collector outcome pagesStreamed).Disciplined
  := by
  unfold Reactor.onCollectorDone
  dsimp only
  split
  next => exact h
  next hopen =>
    have hlate : ¬ s.Late := h.not_late (by
      cases hrequested : s.finishRequested with
      | true => simp [hrequested] at hopen
      | false => rfl)
    cases hsuccess : outcome.success with
    | false => exact (Disciplined.partDone (s := s.recordPartFailure ..) h).pump
    | true =>
      simp only [if_true]
      split
      next hstructure => exact h.requestFinish (by simpa using hstructure)
      next => exact (h.emitCollector hlate ..).partDone.pump

theorem Disciplined.onSchedulerFinish (h : s.Disciplined) (contextCancelled : Bool)
    (failure : Status) :
  (s.onSchedulerFinish contextCancelled failure).Disciplined
  := by
  unfold Reactor.onSchedulerFinish
  split
  next => exact h.requestFinish (by decide)
  next =>
    extract_lets status judged
    have hjudged : judged.Disciplined := by
      unfold judged
      split <;> exact h
    exact hjudged.partDone.pump

theorem Disciplined.submitCv (h : s.Disciplined) (failure : Option Status) :
  (s.submitCv failure).Disciplined
  := by
  cases failure with
  | none =>
    unfold Reactor.submitCv
    dsimp only
    split
    · exact Disciplined.cancelTicket (s := { s with ticketValid := true }) h
    · exact h
  | some status => exact (Disciplined.partDone (s := s.recordPartFailure .grparseCv status) h).pump

/-- Every call in time keeps to the discipline. -/
theorem Disciplined.handle (h : s.Disciplined) (call : Call π) (hcall : s.InTime call) :
  (s.handle call).Disciplined
  := by
  cases call with
  | writeDone ok => exact h.onWriteDone hcall ok
  | cancel =>
    exact Disciplined.requestFinish (s := { s with clientCancelled := true }) h (by decide)
  | document totalPages => exact h
  | streamedPage slice => exact h.onStreamedPage slice
  | page pageNumber page => exact h.onPage pageNumber page hcall
  | schedulerFinish contextCancelled failure => exact h.onSchedulerFinish contextCancelled failure
  | collectorDone collector outcome pagesStreamed =>
    exact h.onCollectorDone collector outcome pagesStreamed
  | submitCv failure => exact h.submitCv failure
  | streamedPrefix firstLeft => exact h
  | pdfFallback outcome => exact h

theorem Disciplined.inOrder (h : s.Disciplined) :
  s.InOrder
  := by
  obtain ⟨wire, hrun, hwire, -⟩ := h
  refine ⟨wire, hrun, fun event hevent => ?_⟩
  rw [hwire.writing] at hevent
  split at hevent
  · exact hevent
  · cases hevent

/-! ### Runs -/

/-- In a run without late pages everything is in order on the wire. -/
theorem Runs.wireInOrder {s₀ s : Reactor π} (hfresh : s₀.Fresh) (hrun : Runs InTime s₀ s) :
  s.InOrder
  := by
  have hdisciplined : s.Disciplined :=
    hrun.invariant (fun _ call h hcall => h.handle call hcall) (.of_fresh hfresh)
  exact hdisciplined.inOrder

/-- A document of one page, from its submission to the end of the stream. -/
theorem Runs.wireInOrder_onePage :
  ∃ s : Reactor (blankPasses {}), s.finishStarted = true ∧ s.finishStatus.ok = true ∧ s.InOrder
  := by
  have run : Runs InTime (Reactor.start (blankPasses {}) 1) _ := .refl _
  have run := run.step (.submitCv none) trivial
  have run := run.step (.document 1) trivial
  have run := run.step (.page 1 ()) (by
    rintro (h | ⟨h, -⟩) <;> exact absurd h (by decide))
  have run := run.step (.writeDone true) rfl
  have run := run.step (.schedulerFinish false {}) trivial
  have run := run.step (.writeDone true) rfl
  exact ⟨_, rfl, rfl, Runs.wireInOrder (fresh_start _ _) run⟩

/-- A collector's document breaks a rule of the structure and ends the stream while a page is
on its way to `on_page`: the page is written behind the end of the stream. -/
theorem Runs.wireOutOfOrder :
  ∃ s₀ s : Reactor (blankPasses ⟨.failedPrecondition, "structure"⟩),
    s₀.Fresh ∧ Runs Possible s₀ s ∧ ¬ s.InOrder
  := by
  have run : Runs Possible (Reactor.start (blankPasses ⟨.failedPrecondition, "structure"⟩) 2) _ :=
    .refl _
  have run := run.step (.submitCv none) trivial
  have run := run.step (.document 1) trivial
  have run := run.step (.collectorDone .markup { success := true } false) trivial
  have run := run.step (.page 1 ()) trivial
  refine ⟨_, _, fresh_start _ _, run, ?_⟩
  rintro ⟨wire, hwire, -⟩
  cases hwire

end Reactor

end GRParse
