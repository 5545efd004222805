import GRParse.Scheduler.Accounting
import GRParse.Scheduler.Bookkeeping

/-!
# Finishing a document

`finish_request` is called for a document once its last page is subtracted, once it could
not be opened, or by `stop` after the workers are gone (`Ledger.Done`).  Nothing can be
delivered for such a document any more, and the exchange of `finish_called` lets only one
of the callers through to `on_finish`.
-/

namespace GRParse.Scheduler

open List Token

/-- Whether a callback is `on_finish`. -/
def Callback.isFinish : Callback → Bool
  | .onFinish _ => true
  | _ => false

/-- Whether a callback is `on_page`. -/
def Callback.isPage : Callback → Bool
  | .onPage _ => true
  | _ => false

/-- How many calls of `on_finish` a request made. -/
def Request.finishes (r : Request) : ℕ :=
  r.callbacks.countP (·.isFinish)

/-! ### What an entry can do -/

section Entries

variable {stopping joined : Bool} {r r' : Request} {taken put : Multiset Token}

/-- What makes a document due to be finished. -/
inductive Due (r : Request) (taken : Multiset Token) (r' : Request) (put : Multiset Token) :
    Prop where
  | cancelled (opening : taken = {.opening}) (same : r' = r) (due : put = {.finishing})
  | opened (returning : taken = {.returning}) (none_left : r.remainingPages = 0)
      (same : r' = r) (due : put = {.finishing})
  | counted (pages : List ℤ) (settled : taken = {.settled pages})
      (none_left : r'.remainingPages = 0)

/-- A document becomes due for one of the three reasons. -/
theorem Act.due (act : Act stopping joined r taken r' put) (h : .finishing ∈ put) :
  Due r taken r' put
  := by
  cases act with
  | openCancelled => exact .cancelled rfl rfl rfl
  | settleOpen none_left => exact .opened rfl none_left rfl rfl
  | complete outcome => split_ifs at h <;> simp at h
  | @count pages =>
    split_ifs at h with hlast
    · apply Due.counted pages rfl
      simp [hlast]
    · simp at h
  | _ => simp at h

/-- Of the calls of `finish_request`, one goes on to `on_finish`. -/
theorem Act.closing (act : Act stopping joined r taken r' put) :
  r'.finishCalled = r.finishCalled ∧
      put.count .closing + r'.finishes = taken.count .closing + r.finishes ∨
    .finishing ∈ taken ∧ r.finishCalled = false ∧ r'.finishCalled = true ∧
      put.count .closing + r'.finishes = taken.count .closing + r.finishes + 1
  := by
  cases act with
  | finish unfinished => simp [unfinished, Request.finishes, add_comm]
  | complete outcome => split_ifs <;> simp [Request.finishes]
  | count => split_ifs <;> simp [Request.finishes]
  | _ => simp [Request.finishes, Callback.isFinish, add_comm]

/-- Once the workers are gone, only external tokens come up. -/
theorem Act.external (act : Act stopping joined r taken r' put) (gone : joined = true)
    (stop : stopping = true) (external : ∀ t ∈ taken, t.isExternal = true) :
  ∀ t ∈ put, t.isExternal = true
  := by
  cases act with
  | complete outcome => simp [isExternal] at external
  | count => simp [isExternal] at external
  | _ => simp_all [isExternal]

/-- The call an entry makes into the callbacks, if it makes one. -/
inductive Called (r : Request) (taken : Multiset Token) (r' : Request) : Prop where
  | none (same : r'.callbacks = r.callbacks)
  | document (pageCount : ℤ) (announcing : taken = {.announcing})
      (callbacks : r'.callbacks = r.callbacks ++ [.onDocument pageCount])
  | page (pageNumber : ℤ) (held : taken = {.held pageNumber})
      (callbacks : r'.callbacks = r.callbacks ++ [.onPage pageNumber])
  | finish (failure : Option Failure) (closing : taken = {.closing})
      (callbacks : r'.callbacks = r.callbacks ++ [.onFinish failure])

/-- Every entry makes one call at most. -/
theorem Act.called (act : Act stopping joined r taken r' put) :
  Called r taken r'
  := by
  cases act with
  | announce pageCount => exact .document pageCount rfl rfl
  | deliver => exact .page _ rfl rfl
  | onFinish => exact .finish _ rfl rfl
  | _ => exact .none rfl

end Entries

/-! ### The end of a document -/

namespace Ledger

variable {l l' : Ledger} {taken : Multiset Token}

/-- Whether a document has published no page count, and will not. -/
def Unpublished (l : Ledger) : Prop :=
  l.request.totalPages = 0 ∧ ∀ t ∈ l.tokens, t.isUnopened = false

/-- When a document may be finished: after the workers are gone, when it will never publish
a page count, or when every page is subtracted. -/
def Done (l : Ledger) : Prop :=
  l.joined = true ∨ l.Unpublished ∨
    l.request.totalPages ≠ 0 ∧ l.request.remainingPages = 0

/-- How far the end of a document has come. -/
structure Finishing (l : Ledger) : Prop where
  due : .finishing ∈ l.tokens → l.Done
  called : l.request.finishCalled = true → l.Done
  closing : l.tokens.count .closing + l.request.finishes =
    if l.request.finishCalled then 1 else 0
  joined : l.joined = true → l.stopping = true ∧ ∀ t ∈ l.tokens, t.isExternal = true
  fresh : l.submitted = false → .finishing ∉ l.tokens ∧ l.request.finishCalled = false
  ordered : l.request.callbacks.Pairwise fun earlier later =>
    earlier.isFinish = true → later.isPage = false

/-- External tokens stand for no pages. -/
theorem inFlight_external {tokens : Multiset Token}
    (external : ∀ t ∈ tokens, t.isExternal = true) :
  inFlight tokens = 0
  := by
  induction tokens using Multiset.induction with
  | empty => rfl
  | cons t tokens ih =>
    have ht := external t (Multiset.mem_cons_self t tokens)
    have hrest := ih fun t' ht' => external t' (Multiset.mem_cons_of_mem ht')
    cases t <;> simp_all [Token.isExternal, Token.inFlight]

/-- A document that may be finished has no page under way. -/
theorem Done.inFlight (done : l.Done) (accounts : l.Accounts) (finishing : l.Finishing) :
  inFlight l.tokens = 0
  := by
  obtain joined | ⟨hzero, -⟩ | ⟨published, none_left⟩ := done
  · exact inFlight_external (finishing.joined joined).2
  · exact (accounts.unpublished hzero).2.2.1
  · exact (accounts.none_left published none_left).2.1

/-- A document that will not publish a page count still will not after an entry. -/
theorem Unpublished.act {put rest : Multiset Token} {r : Request} (unpublished : l.Unpublished)
    (holds : l.tokens = taken + rest) (act : Act l.stopping l.joined l.request taken r put) :
  Unpublished { l with request := r, tokens := put + rest }
  := by
  obtain ⟨hzero, hnone⟩ := unpublished
  rw [holds] at hnone
  have hnone_taken : ∀ t ∈ taken, t.isUnopened = false := fun t ht => hnone t (by simp [ht])
  constructor
  · obtain htotal | ⟨htaken, -⟩ := act.booking.totalPages
    · exact htotal.trans hzero
    · simp [htaken, isUnopened] at hnone_taken
  · intro t ht
    obtain ht | ht := Multiset.mem_add.mp ht
    · by_contra hunopened
      obtain ⟨t', ht', hunopened'⟩ := act.unopened ⟨t, ht, by simpa using hunopened⟩
      simp [hnone_taken t' ht'] at hunopened'
    · exact hnone t (by simp [ht])

/-- A document that will not publish a page count still will not after a move. -/
theorem Unpublished.move (unpublished : l.Unpublished) (old : l.submitted = true)
    (move : l.Move taken l') :
  l'.Unpublished ∧ l'.submitted = true
  := by
  have ⟨hzero, hnone⟩ := unpublished
  cases move with
  | idle => exact ⟨unpublished, old⟩
  | act holds act => exact ⟨unpublished.act holds act, old⟩
  | submit tuning pageWindow new => simp [old] at new
  | stop => exact ⟨⟨hzero, fun t ht => hnone t (Multiset.mem_of_mem_filter ht)⟩, old⟩
  | join => exact ⟨⟨hzero, hnone⟩, old⟩
  | abandon joined old times =>
    refine ⟨⟨hzero, fun t ht => ?_⟩, old⟩
    obtain ht | ht := Multiset.mem_add.mp ht
    · rw [Multiset.eq_of_mem_replicate ht]
      rfl
    · exact hnone t ht

/-- An entry leaves a document that may be finished so. -/
theorem Done.act {put rest : Multiset Token} {r : Request} (done : l.Done)
    (opening : l.Opening) (accounts : l.Accounts) (holds : l.tokens = taken + rest)
    (act : Act l.stopping l.joined l.request taken r put) :
  Done { l with request := r, tokens := put + rest }
  := by
  obtain joined | unpublished | ⟨published, none_left⟩ := done
  · exact Or.inl joined
  · exact Or.inr (Or.inl (unpublished.act holds act))
  · have hopened : taken ≠ {.opening} := by
      rintro rfl
      exact published (opening.unopened ⟨.opening, by simp [holds], rfl⟩)
    refine Or.inr (Or.inr ⟨?_, ?_⟩)
    · obtain htotal | ⟨htaken, -⟩ := act.booking.totalPages
      · simpa [htotal] using published
      · exact absurd htaken hopened
    · obtain hsame | htaken | ⟨pages, hpages, hremaining⟩ := act.booking.remaining
      · exact hsame.trans none_left
      · exact absurd htaken hopened
      · obtain ⟨hcount, -⟩ := accounts.none_left published none_left
        rw [holds, toCount_add, hpages, add_eq_zero, add_eq_zero] at hcount
        have hpages' : pages = [] := by simpa using hcount.1.1
        simp [hremaining, none_left, hpages']

/-- A call of `finish_request` comes up only for a document that may be finished. -/
theorem Finishing.due_act {put rest : Multiset Token} {r : Request} (finishing : l.Finishing)
    (opening : l.Opening) (accounts : l.Accounts) (holds : l.tokens = taken + rest)
    (act : Act l.stopping l.joined l.request taken r put) (h : .finishing ∈ put + rest) :
  Done { l with request := r, tokens := put + rest }
  := by
  obtain h | h := Multiset.mem_add.mp h
  · have atMostOne := opening.atMostOne
    rw [holds, openers_add] at atMostOne
    have alone : openers taken = 1 → ∀ t ∈ rest, t.isUnopened = false := by
      intro hone t ht
      by_contra hunopened
      have hopener : t.isOpener = true := by
        cases t <;> simp_all [isUnopened, isOpener]
      have hpos := openers_pos ht hopener
      omega
    cases act.due h with
    | cancelled htaken same due =>
      have hzero := opening.unopened ⟨.opening, by simp [holds, htaken], rfl⟩
      refine Or.inr (Or.inl ⟨by simpa [same] using hzero, ?_⟩)
      intro t ht
      obtain ht | ht := Multiset.mem_add.mp ht
      · rw [due, Multiset.mem_singleton] at ht
        rw [ht]
        rfl
      · exact alone (by simp [htaken, isOpener]) t ht
    | opened htaken none_left same due =>
      by_cases hzero : l.request.totalPages = 0
      · refine Or.inr (Or.inl ⟨by simpa [same] using hzero, ?_⟩)
        intro t ht
        obtain ht | ht := Multiset.mem_add.mp ht
        · rw [due, Multiset.mem_singleton] at ht
          rw [ht]
          rfl
        · exact alone (by simp [htaken, isOpener]) t ht
      · exact Or.inr (Or.inr ⟨by simpa [same] using hzero, by simpa [same] using none_left⟩)
    | counted pages htaken none_left =>
      have published := accounts.settled pages (by simp [holds, htaken])
      refine Or.inr (Or.inr ⟨?_, none_left⟩)
      obtain htotal | ⟨htaken', -⟩ := act.booking.totalPages
      · simpa [htotal] using published
      · simp [htaken] at htaken'
  · exact (finishing.due (by simp [holds, h])).act opening accounts holds act

/-- A document not finished yet has not called `on_finish`. -/
theorem Finishing.not_finished (finishing : l.Finishing)
    (unfinished : l.request.finishCalled = false) :
  ∀ callback ∈ l.request.callbacks, callback.isFinish = false
  := by
  have hclosing := finishing.closing
  simp only [unfinished] at hclosing
  have hnone : l.request.finishes = 0 := by
    simp at hclosing
    exact hclosing.2
  intro callback hmem
  simpa using countP_eq_zero.mp hnone callback hmem

/-- A move keeps the end of a document in order. -/
theorem Finishing.move (finishing : l.Finishing) (opening : l.Opening)
    (accounts : l.Accounts) (move : l.Move taken l') :
  l'.Finishing
  := by
  cases move with
  | idle => exact finishing
  | @act taken put rest r holds act =>
    constructor
    · exact finishing.due_act opening accounts holds act
    · intro called
      obtain ⟨hsame, -⟩ | ⟨hfinishing, -⟩ := act.closing
      · exact (finishing.called (hsame.symm.trans called)).act opening accounts holds act
      · have hdue := finishing.due (by simp [holds, hfinishing])
        exact hdue.act opening accounts holds act
    · have hclosing := finishing.closing
      rw [holds, Multiset.count_add] at hclosing
      simp only [Multiset.count_add]
      obtain ⟨hsame, hcount⟩ | ⟨-, unfinished, called, hcount⟩ := act.closing
      · rw [hsame]
        omega
      · simp only [unfinished, called, if_true, Bool.false_eq_true, if_false] at hclosing ⊢
        omega
    · intro joined
      obtain ⟨stopping, external⟩ := finishing.joined joined
      refine ⟨stopping, ?_⟩
      rw [holds] at external
      intro t ht
      obtain ht | ht := Multiset.mem_add.mp ht
      · exact act.external joined stopping (fun t ht => external t (by simp [ht])) t ht
      · exact external t (by simp [ht])
    · intro new
      obtain ⟨hnone, unfinished⟩ := finishing.fresh new
      obtain ⟨hzero, hopeners⟩ := opening.fresh new
      rw [holds, openers_add] at hopeners
      constructor
      · intro ht
        obtain ht | ht := Multiset.mem_add.mp ht
        · cases act.due ht with
          | cancelled htaken => simp [htaken, Token.isOpener] at hopeners
          | opened htaken => simp [htaken, Token.isOpener] at hopeners
          | counted pages htaken =>
            exact accounts.settled pages (by simp [holds, htaken]) hzero
        · exact hnone (by simp [holds, ht])
      · obtain ⟨hsame, -⟩ | ⟨hfinishing, -⟩ := act.closing
        · exact hsame.trans unfinished
        · exact absurd (by simp [holds, hfinishing]) hnone
    · cases act.called with
      | none same => simpa [same] using finishing.ordered
      | document pageCount announcing callbacks =>
        simpa [callbacks, pairwise_append, Callback.isPage] using finishing.ordered
      | finish failure closing callbacks =>
        simpa [callbacks, pairwise_append, Callback.isPage] using finishing.ordered
      | page pageNumber held callbacks =>
        have unfinished : l.request.finishCalled = false := by
          by_contra hcalled
          have hnone :=
            (finishing.called (by simpa using hcalled)).inFlight accounts finishing
          simp [holds, held, Token.inFlight] at hnone
        have hnot := finishing.not_finished unfinished
        simp only [callbacks, pairwise_append, pairwise_singleton,
          mem_singleton, forall_eq, true_and]
        exact ⟨finishing.ordered, fun earlier hearlier hfinish => by simp_all⟩
  | submit tuning pageWindow new =>
    obtain ⟨hnone, unfinished⟩ := finishing.fresh new
    have hclosing := finishing.closing
    simp [unfinished] at hclosing
    constructor
    · simp [hnone]
    · simp [Request.submitted]
    · simp [Request.submitted, Request.finishes, hclosing]
    · intro joined
      obtain ⟨stopping, external⟩ := finishing.joined joined
      simpa [stopping, Token.isExternal] using external
    · simp
    · simp [Request.submitted]
  | stop =>
    have hpending : ∀ t ∈ l.tokens.filter (· ≠ .pending), t ∈ l.tokens :=
      fun t ht => Multiset.mem_of_mem_filter ht
    have done : l.Done → Done { l with
        stopping := true
        tokens := l.tokens.filter (· ≠ .pending) } := by
      rintro (joined | ⟨hzero, hnone⟩ | hall)
      · exact Or.inl joined
      · exact Or.inr (Or.inl ⟨hzero, fun t ht => hnone t (hpending t ht)⟩)
      · exact Or.inr (Or.inr hall)
    constructor
    · exact fun ht => done (finishing.due (hpending _ ht))
    · exact fun called => done (finishing.called called)
    · simpa [Multiset.count_filter] using finishing.closing
    · intro joined
      obtain ⟨-, external⟩ := finishing.joined joined
      exact ⟨rfl, fun t ht => external t (hpending t ht)⟩
    · intro new
      obtain ⟨hnone, unfinished⟩ := finishing.fresh new
      exact ⟨fun ht => hnone (hpending _ ht), unfinished⟩
    · exact finishing.ordered
  | join stopping external =>
    exact ⟨fun _ => Or.inl rfl, fun _ => Or.inl rfl, finishing.closing,
      fun _ => ⟨stopping, external⟩, finishing.fresh, finishing.ordered⟩
  | abandon joined old times =>
    constructor
    · exact fun _ => Or.inl joined
    · exact fun _ => Or.inl joined
    · simpa [Multiset.count_replicate] using finishing.closing
    · intro _
      obtain ⟨stopping, external⟩ := finishing.joined joined
      refine ⟨stopping, fun t ht => ?_⟩
      obtain ht | ht := Multiset.mem_add.mp ht
      · rw [Multiset.eq_of_mem_replicate ht]
        rfl
      · exact external t ht
    · intro new
      simp only at new
      simp [new] at old
    · exact finishing.ordered

end Ledger

/-! ### Reachable schedulers -/

/-- What holds of the ledger of every document of a reachable scheduler. -/
structure Ledger.Sound (l : Ledger) : Prop where
  opening : l.Opening
  accounts : l.Accounts
  finishing : l.Finishing

/-- A move keeps a ledger sound. -/
theorem Ledger.Sound.move {l l' : Ledger} {taken : Multiset Token} (sound : l.Sound)
    (move : l.Move taken l') :
  l'.Sound
  := by
  obtain ⟨opening, accounts, finishing⟩ := sound
  exact ⟨opening.move move, accounts.move opening move,
    finishing.move opening accounts move⟩

/-- The head of a loop holds nothing. -/
theorem Op.holds_of_isLoop {op : Op} (h : op.isLoop = true) :
  op.holds = 0
  := by
  cases op <;> first | rfl | cases h

/-- A fresh scheduler owes no document anything. -/
theorem Pool.start_ledger (options : Options) (regionDetector : Bool) (callers : ℕ)
    (d : RequestId) :
  (Pool.start options regionDetector callers).ledger d = ⟨{}, 0, false, false, false⟩
  := by
  have hops : Op.allHold (Pool.start options regionDetector callers).ops = 0 := by
    rw [Op.allHold, Multiset.eq_zero_iff_forall_notMem]
    rintro x hx
    obtain ⟨op, hop, hx⟩ := Holdings.mem_sum_map.mp hx
    obtain ⟨thread, hthread, hop⟩ := mem_flatMap.mp hop
    obtain ⟨head, hloop, hcode⟩ | ⟨-, hcode | hcode⟩ := Pool.start_thread hthread
    · rw [hcode, mem_singleton] at hop
      rw [hop, Op.holds_of_isLoop (Role.isLoop_loop hloop)] at hx
      cases Multiset.notMem_zero x hx
    · rw [hcode, mem_singleton] at hop
      rw [hop] at hx
      cases Multiset.notMem_zero x hx
    · rw [hcode, mem_singleton] at hop
      rw [hop] at hx
      cases Multiset.notMem_zero x hx
  have hstate : (State.start options regionDetector).holds = 0 := by
    simp [State.holds, State.start, BoundedQueue.holds, waitersHold]
  simp only [Pool.ledger, Pool.holds, hops]
  simp [Pool.start, hstate]
  simp [State.start]

/-- The ledgers of a reachable scheduler are sound. -/
theorem Reachable.sound {c : Pool} (h : Reachable c) (d : RequestId) :
  (c.ledger d).Sound
  := by
  obtain ⟨options, regionDetector, callers, run⟩ := h
  suffices keep : Pool.Orderly c ∧ (Pool.ledger c d).Sound from keep.2
  induction run with
  | refl =>
    refine ⟨.start options regionDetector callers, ?_⟩
    rw [Pool.start_ledger]
    constructor
    · constructor <;> simp
    · constructor <;> simp
    · constructor <;> simp [Request.finishes]
  | step _ _ step ih =>
    obtain ⟨orderly, sound⟩ := ih
    obtain ⟨taken, move, -⟩ := Step.move orderly step d
    exact ⟨orderly.step step, sound.move move⟩

/-! ### The accounting of a document -/

/-- What the accounting of a document says, at a reachable scheduler.  `Pool.ledger` says
where its pages are. -/
structure Pool.Accounted (c : Pool) (d : RequestId) : Prop where
  /-- `on_finish` is called at most once. -/
  finishes_once : (c.shared.requests d).finishes ≤ 1
  /-- A call of `on_finish` comes from the end of `stop`, or for a document that never
  publishes a page count, or after every page reached one outcome and was subtracted. -/
  finishes_last : ∀ c', Step c (.callOnFinish d) c' →
    c.shared.joined = true ∨
    (∀ c'', ThreadPool.Reaches Exec c c'' → (c''.shared.requests d).totalPages = 0) ∨
    (c.shared.requests d).totalPages ≠ 0 ∧
      ((c.shared.requests d).outcomes.map (·.1)).Perm
        (pageSpan (c.shared.requests d).firstPage (c.shared.requests d).totalPages) ∧
      (c.shared.requests d).counted.Perm
        (pageSpan (c.shared.requests d).firstPage (c.shared.requests d).totalPages)
  /-- No page is subtracted twice, and only pages of the span are. -/
  counted_once : (c.shared.requests d).counted.Nodup ∧
    ∀ page ∈ (c.shared.requests d).counted,
      (c.shared.requests d).firstPage ≤ page ∧ page ≤ (c.shared.requests d).totalPages
  /-- A page not subtracted is in one place, from which it will be. -/
  in_one_place : (c.shared.requests d).totalPages ≠ 0 →
    ((c.shared.requests d).counted : Multiset ℤ) + toCount (c.ledger d).tokens +
        inFlight (c.ledger d).tokens +
        (pageSpan (c.shared.requests d).nextPageToSchedule
          (c.shared.requests d).totalPages : Multiset ℤ) =
      pageSpan (c.shared.requests d).firstPage (c.shared.requests d).totalPages
  /-- The counter is the number of pages not subtracted. -/
  remaining : (c.shared.requests d).totalPages ≠ 0 →
    (c.shared.requests d).remainingPages + (c.shared.requests d).counted.length =
      (c.shared.requests d).totalPages - (c.shared.requests d).firstPage + 1
  remaining_nonneg : 0 ≤ (c.shared.requests d).remainingPages
  /-- No `on_page` comes after `on_finish`. -/
  page_before_finish : (c.shared.requests d).callbacks.Pairwise fun earlier later =>
    earlier.isFinish = true → later.isPage = false

/-- A document that will not publish a page count never does. -/
theorem Ledger.Unpublished.forever {c c' : Pool} {d : RequestId} (orderly : c.Orderly)
    (unpublished : (c.ledger d).Unpublished) (old : (c.ledger d).submitted = true)
    (run : ThreadPool.Reaches Exec c c') :
  (c'.shared.requests d).totalPages = 0
  := by
  suffices keep : Pool.Orderly c' ∧ (Pool.ledger c' d).Unpublished ∧
      (Pool.ledger c' d).submitted = true from keep.2.1.1
  induction run with
  | refl => exact ⟨orderly, unpublished, old⟩
  | step _ _ step ih =>
    obtain ⟨orderly, unpublished, old⟩ := ih
    obtain ⟨taken, move, -⟩ := Step.move orderly step d
    exact ⟨orderly.step step, unpublished.move old move⟩

/-- The pages of every document are accounted for, whatever the threads of a scheduler
do. -/
theorem Reachable.accounted {c : Pool} (h : Reachable c) (d : RequestId) :
  c.Accounted d
  := by
  obtain ⟨opening, accounts, finishing⟩ := h.sound d
  constructor
  · have hclosing := finishing.closing
    have hone : (if (c.shared.requests d).finishCalled then 1 else 0) ≤ 1 := by
      split_ifs <;> omega
    exact le_trans (Nat.le_add_left _ _) (hclosing.trans_le hone)
  · intro c' step
    have hclosing : .closing ∈ (c.ledger d).tokens :=
      Pool.mem_tokens.mpr (Or.inl ⟨_, step.op_mem, by simp [Op.holds, Token.for]⟩)
    have called : (c.ledger d).request.finishCalled = true := by
      have heq := finishing.closing
      have hpos := Multiset.count_pos.mpr hclosing
      split_ifs at heq with hcalled
      · exact hcalled
      · omega
    obtain joined | unpublished | ⟨published, none_left⟩ := finishing.called called
    · exact Or.inl joined
    · refine Or.inr (Or.inl fun c'' run => ?_)
      apply unpublished.forever h.orderly _ run
      by_contra hnew
      obtain ⟨-, unfinished⟩ := finishing.fresh (by simpa using hnew)
      simp [called] at unfinished
    · refine Or.inr (Or.inr ⟨published, ?_⟩)
      obtain ⟨hcount, hflight, hpast⟩ := accounts.none_left published none_left
      have hpartition := accounts.partition published
      have houtcomes := accounts.outcomes
      rw [hcount, hflight, pageSpan_nil hpast] at hpartition
      rw [hcount] at houtcomes
      simp only [Multiset.coe_nil, add_zero] at hpartition houtcomes
      exact ⟨Multiset.coe_eq_coe.mp (houtcomes.trans hpartition),
        Multiset.coe_eq_coe.mp hpartition⟩
  · by_cases published : (c.shared.requests d).totalPages = 0
    · have hnone := (accounts.unpublished published).1
      have hcounted : (c.shared.requests d).counted = [] := hnone
      simp [hcounted]
    · have hle : ((c.shared.requests d).counted : Multiset ℤ) ≤
          pageSpan (c.shared.requests d).firstPage (c.shared.requests d).totalPages := by
        have hpartition := accounts.partition published
        rw [add_assoc, add_assoc] at hpartition
        exact hpartition ▸ Multiset.le_add_right _ _
      constructor
      · exact Multiset.coe_nodup.mp
          (Multiset.nodup_of_le hle (Multiset.coe_nodup.mpr (nodup_pageSpan _ _)))
      · intro page hpage
        exact mem_pageSpan.mp (Multiset.mem_coe.mp (Multiset.mem_of_le hle hpage))
  · exact accounts.partition
  · exact accounts.remaining
  · by_cases published : (c.shared.requests d).totalPages = 0
    · obtain ⟨-, -, -, -, hzero⟩ := accounts.unpublished published
      exact hzero.ge
    · have hpartition := congrArg Multiset.card (accounts.partition published)
      have hremaining := accounts.remaining published
      have hbounds := accounts.bounds published
      have hspan : ((pageSpan (c.ledger d).request.firstPage
          (c.ledger d).request.totalPages).length : ℤ) = _ := length_pageSpan (by omega)
      simp only [Multiset.card_add, Multiset.coe_card] at hpartition
      have hrequest : c.shared.requests d = (c.ledger d).request := rfl
      rw [hrequest]
      omega
  · exact finishing.ordered

/-- The options of the scheduler of the example runs. -/
def smallOptions : Options where
  documentQueueCapacity := 1
  renderQueueCapacity := 1
  inferenceQueueCapacity := 1
  assemblyQueueCapacity := 1
  openWorkers := 1
  renderWorkers := 1
  inferenceWorkers := 1
  assemblyWorkers := 1
  pageWindow := 1
  maxActiveDocuments := 1
  capturePageImages := false
  positive := by decide

/-- The accounting, after a document of one page was delivered and finished. -/
theorem Reachable.accounted_delivered :
  ∃ c : Pool, (c.shared.requests 0).callbacks = [.onDocument 1, .onPage 1, .onFinish none] ∧
    c.Accounted 0
  := by
  have run : ThreadPool.Reaches Exec (Pool.start smallOptions false 1) _ := .refl
  have run := run.andThen 5 (.caller (.submit {} (by decide)))
  have run := run.andThen 5 (.caller (.submitPush rfl))
  have run := run.andThen 0 (.opening (.popDocument rfl))
  have run := run.andThen 0 (.opening (.openDocument rfl))
  have run := run.andThen 0 (.opening (.openSource rfl))
  have run := run.andThen 0 (.opening (@OpenExec.countPages _ 0 1 1 1 rfl))
  have run := run.andThen 0 (.opening (.publishPages rfl))
  have run := run.andThen 0 (.opening .callOnDocument)
  have run := run.andThen 0 (.opening .onDocumentReturns)
  have run := run.andThen 0 (.request (.queueReschedule rfl))
  have run := run.andThen 0 (.request (.setPending rfl))
  have run := run.andThen 0 (.request (.pushPending rfl))
  have run := run.andThen 1 (.schedule (.popReschedule rfl rfl))
  have run := run.andThen 1 (.schedule .clearPending)
  have run := run.andThen 1 (.schedule (.schedulePages (d := 0) rfl rfl (by decide) rfl))
  have run := run.andThen 1 (.schedule (.schedulePage (d := 0) (by decide) (by decide) rfl))
  have run := run.andThen 1 (.schedule (.scheduled (d := 0) (Or.inl rfl)))
  have run := run.andThen 2 (.stage (.popRender rfl))
  have run := run.andThen 2 (.stage (.renderPage rfl))
  have run := run.andThen 2 (.stage (@StageExec.rasterize _ ⟨0, 1⟩ none (fun _ => rfl) rfl))
  have run := run.andThen 2 (.stage (.pageRendered rfl))
  have run := run.andThen 2 (.stage (.pushInference (Or.inr (by decide)) rfl))
  have run := run.andThen 3 (.stage (.popInference rfl))
  have run := run.andThen 3 (.stage (.recognizePage rfl))
  have run := run.andThen 3 (.stage .runRecognition)
  have run := run.andThen 3 (.stage (.pushAssembly (Or.inr (by decide)) rfl))
  have run := run.andThen 4 (.stage (.popAssembly rfl))
  have run := run.andThen 4 (.stage (.assemblePage rfl))
  have run := run.andThen 4 (.stage .callOnPage)
  have run := run.andThen 4 (.stage (.onPageReturns .acceptedAndRelease))
  have run := run.andThen 4 (.request (.releaseSlots Nat.one_ne_zero rfl))
  have run := run.andThen 4 (.request (.addSlots rfl))
  have run := run.andThen 4 (.request (.queueReschedule rfl))
  have run := run.andThen 4 (.request (.setPending rfl))
  have run := run.andThen 4 (.request (.pushPending rfl))
  have run := run.andThen 4 (.request .completePage)
  have run := run.andThen 4 (.request .countPage)
  have run := run.andThen 4 (.request (.finishRequest rfl))
  have run := run.andThen 4 (.request .retireRequest)
  have run := run.andThen 4 (.request .callOnFinish)
  exact ⟨_, rfl, Reachable.accounted ⟨smallOptions, false, 1, run⟩ 0⟩

end GRParse.Scheduler
