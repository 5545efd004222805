import GRParse.Scheduler.Finish

/-!
# The order of the callbacks

`coordinate` publishes the page count and the credits before it calls `on_document`.  In
between, any call of `schedule_pages` for the document schedules its pages, or cancels them
all, and so `on_page` and even `on_finish` may come before `on_document`.  A caller that
cancels or releases in time makes it so.  Without such a call of
`schedule_pages` the callbacks come in order.
-/

namespace GRParse.Scheduler

open List

/-- The callbacks of a request come in order: `on_document` not after `on_finish`, and
`on_page` not before `on_document`. -/
def Request.InOrder (r : Request) : Prop :=
  (∀ before pageCount, before ++ [.onDocument pageCount] <+: r.callbacks →
    ∀ failure, .onFinish failure ∉ before) ∧
  ∀ before pageNumber, before ++ [.onPage pageNumber] <+: r.callbacks →
    ∃ pageCount, .onDocument pageCount ∈ before

/-- Whether a step keeps out of the window: `schedule_pages` is not called for the document
while its opener is about to call `on_document`. -/
def OutsideWindow (d : RequestId) (c : Pool) (op : Op) : Prop :=
  op = .schedulePages d → ∀ pageCount, .callOnDocument d pageCount ∉ c.ops

section Entries

variable {stopping joined : Bool} {r r' : Request} {taken put : Multiset Token}

/-- Only a publication puts the token of the announcement. -/
theorem Act.announcing (act : Act stopping joined r taken r' put) (h : .announcing ∈ put) :
  taken = {.opening} ∧ put = {.announcing} ∧ r'.nextPageToSchedule = r'.firstPage
  := by
  cases act with
  | publish => exact ⟨rfl, rfl, rfl⟩
  | complete outcome => split_ifs at h <;> simp at h
  | count => split_ifs at h <;> simp at h
  | _ => simp at h

/-- Only `schedule_pages` begins to schedule the pages of a document. -/
theorem Act.starts (act : Act stopping joined r taken r' put)
    (outside : .scheduling ∉ taken) (idle : .filling ∉ taken) (old : taken ≠ {.opening}) :
  r'.nextPageToSchedule = r.nextPageToSchedule ∧ r'.firstPage = r.firstPage ∧ .filling ∉ put
  := by
  cases act with
  | complete outcome => split_ifs <;> simp
  | count => split_ifs <;> simp
  | _ => simp_all

/-- The announcement is the call of `on_document`. -/
theorem Act.announces (act : Act stopping joined r taken r' put) (h : .announcing ∈ taken) :
  ∃ pageCount, r'.callbacks = r.callbacks ++ [.onDocument pageCount]
  := by
  cases act with
  | announce pageCount => exact ⟨pageCount, rfl⟩
  | _ => simp at h

end Entries

namespace Ledger

variable {l l' : Ledger} {taken : Multiset Token}

/-- How far a document has come that keeps out of the window. -/
structure Announcing (l : Ledger) : Prop where
  quiet : .announcing ∈ l.tokens →
    l.request.nextPageToSchedule = l.request.firstPage ∧ .filling ∉ l.tokens
  told : l.request.totalPages ≠ 0 → .announcing ∉ l.tokens →
    ∃ pageCount, .onDocument pageCount ∈ l.request.callbacks
  inOrder : l.request.InOrder

/-- While a document waits for its announcement, none of its pages is under way, and it is
not finished. -/
theorem Announcing.waiting (announcing : l.Announcing) (sound : l.Sound)
    (h : .announcing ∈ l.tokens) :
  inFlight l.tokens = 0 ∧ l.request.finishCalled = false
  := by
  obtain ⟨hnext, -⟩ := announcing.quiet h
  have hpos := sound.opening.announced h
  have hne : l.request.totalPages ≠ 0 := by omega
  have hbounds := sound.accounts.bounds hne
  constructor
  · have hpartition := sound.accounts.partition hne
    rw [hnext, add_eq_right, add_eq_zero] at hpartition
    exact hpartition.2
  · by_contra hcalled
    obtain joined | ⟨hzero, -⟩ | ⟨-, none_left⟩ :=
      sound.finishing.called (by simpa using hcalled)
    · have external := (sound.finishing.joined joined).2 _ h
      cases external
    · omega
    · have hpast := (sound.accounts.none_left hne none_left).2.2
      omega

/-- A move outside the window keeps the callbacks of a document in order. -/
theorem Announcing.move (announcing : l.Announcing) (sound : l.Sound)
    (move : l.Move taken l') (outside : .scheduling ∈ taken → .announcing ∉ l.tokens) :
  l'.Announcing
  := by
  cases move with
  | idle => exact announcing
  | @act taken put rest r holds act =>
    have hopeners := sound.opening.atMostOne
    rw [holds, openers_add] at hopeners
    constructor
    · intro h
      simp only at h ⊢
      obtain hput | hrest := Multiset.mem_add.mp h
      · obtain ⟨htaken, hput, hnext⟩ := act.announcing hput
        refine ⟨hnext, ?_⟩
        have hzero := sound.opening.unopened ⟨.opening, by simp [holds, htaken], rfl⟩
        intro hfilling
        have hfilling' : .filling ∈ l.tokens := by simpa [holds, htaken, hput] using hfilling
        have hpos := sound.opening.filling hfilling'
        omega
      · have hbefore : .announcing ∈ l.tokens := by simp [holds, hrest]
        obtain ⟨hnext, hfilling⟩ := announcing.quiet hbefore
        rw [holds, Multiset.mem_add, not_or] at hfilling
        have old : taken ≠ {.opening} := by
          rintro rfl
          have hpos := openers_pos hrest rfl
          simp [Token.isOpener] at hopeners
          omega
        obtain ⟨hnext', hfirst', hput⟩ :=
          act.starts (fun h => outside h hbefore) hfilling.1 old
        rw [hnext', hfirst']
        exact ⟨hnext, by simp [hput, hfilling.2]⟩
    · intro published hnone
      simp only at published hnone ⊢
      rw [Multiset.mem_add, not_or] at hnone
      by_cases hbefore : .announcing ∈ l.tokens
      · have htaken : .announcing ∈ taken := by simpa [holds, hnone.2] using hbefore
        obtain ⟨pageCount, callbacks⟩ := act.announces htaken
        exact ⟨pageCount, by simp [callbacks]⟩
      · have hpublished : l.request.totalPages ≠ 0 := by
          obtain htotal | ⟨-, hput, -⟩ := act.booking.totalPages
          · rwa [← htotal]
          · simp [hput] at hnone
        obtain ⟨pageCount, htold⟩ := announcing.told hpublished hbefore
        use pageCount
        cases act.called with
        | none same => rwa [same]
        | document _ _ callbacks => simp [callbacks, htold]
        | page _ _ callbacks => simp [callbacks, htold]
        | finish _ _ callbacks => simp [callbacks, htold]
    · obtain ⟨finish, document⟩ := announcing.inOrder
      cases act.called with
      | none same => simpa [Request.InOrder, same] using announcing.inOrder
      | document pageCount htaken callbacks =>
        have h : .announcing ∈ l.tokens := by simp [holds, htaken]
        have hnot := sound.finishing.not_finished (announcing.waiting sound h).2
        simp only [Request.InOrder, callbacks, prefix_concat_iff]
        constructor
        · rintro before n (heq | hstart) failure
          · obtain ⟨rfl, -⟩ := append_inj' heq rfl
            intro hmem
            have := hnot _ hmem
            cases this
          · exact finish before n hstart failure
        · rintro before n (heq | hstart)
          · obtain ⟨-, heq⟩ := append_inj' heq rfl
            simp at heq
          · exact document before n hstart
      | page pageNumber held callbacks =>
        have hheld : .held pageNumber ∈ l.tokens := by simp [holds, held]
        have hflight : inFlight l.tokens ≠ 0 := by simp [holds, held, Token.inFlight]
        have hpublished : l.request.totalPages ≠ 0 :=
          fun hzero => hflight (sound.accounts.unpublished hzero).2.2.1
        have hnone : .announcing ∉ l.tokens :=
          fun h => hflight (announcing.waiting sound h).1
        have told := announcing.told hpublished hnone
        simp only [Request.InOrder, callbacks, prefix_concat_iff]
        constructor
        · rintro before n (heq | hstart) failure
          · obtain ⟨-, heq⟩ := append_inj' heq rfl
            simp at heq
          · exact finish before n hstart failure
        · rintro before n (heq | hstart)
          · obtain ⟨rfl, -⟩ := append_inj' heq rfl
            exact told
          · exact document before n hstart
      | finish failure closing callbacks =>
        simp only [Request.InOrder, callbacks, prefix_concat_iff]
        constructor
        · rintro before n (heq | hstart) failure'
          · obtain ⟨-, heq⟩ := append_inj' heq rfl
            simp at heq
          · exact finish before n hstart failure'
        · rintro before n (heq | hstart)
          · obtain ⟨-, heq⟩ := append_inj' heq rfl
            simp at heq
          · exact document before n hstart
  | submit tuning pageWindow new =>
    have hzero := sound.opening.fresh new
    constructor
    · intro h
      have hpos := sound.opening.announced (by simpa using h)
      omega
    · exact fun hne => absurd rfl hne
    · simp [Request.submitted, Request.InOrder]
  | stop =>
    constructor
    · intro h
      obtain ⟨hnext, hfilling⟩ := announcing.quiet (Multiset.mem_of_mem_filter h)
      exact ⟨hnext, fun h => hfilling (Multiset.mem_of_mem_filter h)⟩
    · intro hne hnone
      exact announcing.told hne fun h => hnone (by simp [h])
    · exact announcing.inOrder
  | join stopping external => exact ⟨announcing.quiet, announcing.told, announcing.inOrder⟩
  | abandon joined old times =>
    constructor
    · simpa [Multiset.mem_replicate] using announcing.quiet
    · simpa [Multiset.mem_replicate] using announcing.told
    · exact announcing.inOrder

end Ledger

/-- In a run that keeps out of the window of a document, its callbacks come in order. -/
theorem callbacks_inOrder {options : Options} {regionDetector : Bool} {callers : ℕ}
    {c : Pool} (d : RequestId)
    (run : ThreadPool.RunsTo Exec (OutsideWindow d)
      (Pool.start options regionDetector callers) c) :
  (c.shared.requests d).InOrder
  := by
  suffices keep : (Pool.ledger c d).Announcing from keep.inOrder
  induction run with
  | refl =>
    rw [Pool.start_ledger]
    constructor <;> simp [Request.InOrder]
  | step run legal step ih =>
    have reachable : Reachable _ := ⟨options, regionDetector, callers, run.reaches⟩
    obtain ⟨taken, move, hop⟩ := Step.move reachable.orderly step d
    apply ih.move (reachable.sound d) move
    intro htaken hannouncing
    obtain ⟨op, hmem, ht⟩ | ht := Pool.mem_tokens.mp hannouncing
    · obtain ⟨pageCount, rfl⟩ : ∃ pageCount, op = .callOnDocument d pageCount := by
        cases op with
        | fail e value next => cases next <;> simp_all [Op.holds, Token.for]
        | cancel e next => cases next <;> simp_all [Op.holds, Token.for]
        | _ => simp_all [Op.holds, Token.for]
      exact legal (hop htaken) pageCount hmem
    · simpa using State.mem_holds ht

/-- The order, after a page was delivered. -/
theorem callbacks_inOrder_delivered :
  ∃ c : Pool, (c.shared.requests 0).callbacks = [.onDocument 1, .onPage 1] ∧
    (c.shared.requests 0).InOrder
  := by
  have run : ThreadPool.RunsTo Exec (OutsideWindow 0) (Pool.start smallOptions false 1) _ :=
    .refl
  have run := run.andThen 5 (.caller (.submit {} (by decide))) rfl nofun
  have run := run.andThen 5 (.caller (.submitPush rfl)) rfl nofun
  have run := run.andThen 0 (.opening (.popDocument rfl)) rfl nofun
  have run := run.andThen 0 (.opening (.openDocument rfl)) rfl nofun
  have run := run.andThen 0 (.opening (.openSource rfl)) rfl nofun
  have run := run.andThen 0 (.opening (@OpenExec.countPages _ 0 1 1 1 rfl)) rfl nofun
  have run := run.andThen 0 (.opening (.publishPages rfl)) rfl nofun
  have run := run.andThen 0 (.opening .callOnDocument) rfl nofun
  have run := run.andThen 0 (.opening .onDocumentReturns) rfl nofun
  have run := run.andThen 0 (.request (.queueReschedule rfl)) rfl nofun
  have run := run.andThen 0 (.request (.setPending rfl)) rfl nofun
  have run := run.andThen 0 (.request (.pushPending rfl)) rfl nofun
  have run := run.andThen 1 (.schedule (.popReschedule rfl rfl)) rfl nofun
  have run := run.andThen 1 (.schedule .clearPending) rfl nofun
  have run := run.andThen 1 (.schedule (.schedulePages (d := 0) rfl rfl (by decide) rfl)) rfl
    (by
      intro _ pageCount h
      change _ ∈ [Op.popDocument, .schedulePages 0, .popReschedule, .popRender, .popInference,
        .popAssembly, .caller, .stop] at h
      simp at h)
  have run := run.andThen 1 (.schedule (.schedulePage (d := 0) (by decide) (by decide) rfl))
    rfl nofun
  have run := run.andThen 2 (.stage (.popRender rfl)) rfl nofun
  have run := run.andThen 2 (.stage (.renderPage rfl)) rfl nofun
  have run := run.andThen 2 (.stage (@StageExec.rasterize _ ⟨0, 1⟩ none (fun _ => rfl) rfl)) rfl
    nofun
  have run := run.andThen 2 (.stage (.pageRendered rfl)) rfl nofun
  have run := run.andThen 2 (.stage (.pushInference (Or.inr (by decide)) rfl)) rfl nofun
  have run := run.andThen 3 (.stage (.popInference rfl)) rfl nofun
  have run := run.andThen 3 (.stage (.recognizePage rfl)) rfl nofun
  have run := run.andThen 3 (.stage .runRecognition) rfl nofun
  have run := run.andThen 3 (.stage (.pushAssembly (Or.inr (by decide)) rfl)) rfl nofun
  have run := run.andThen 4 (.stage (.popAssembly rfl)) rfl nofun
  have run := run.andThen 4 (.stage (.assemblePage rfl)) rfl nofun
  have run := run.andThen 4 (.stage .callOnPage) rfl nofun
  exact ⟨_, rfl, callbacks_inOrder 0 run⟩

/-- A cancel, or a release, that lands between the publication of the page count and the
call of `on_document`: a document finished before it is announced, and one whose page is
delivered before it is announced. -/
theorem callbacks_outOfOrder :
  (∃ c : Pool, Reachable c ∧
      (c.shared.requests 0).callbacks = [.onFinish none, .onDocument 1] ∧
      ¬ (c.shared.requests 0).InOrder) ∧
    ∃ c : Pool, Reachable c ∧ (c.shared.requests 0).callbacks = [.onPage 1] ∧
      ¬ (c.shared.requests 0).InOrder
  := by
  have run : ThreadPool.Reaches Exec (Pool.start smallOptions false 1) _ := .refl
  have run := run.andThen 5 (.caller (.submit {} (by decide)))
  have run := run.andThen 5 (.caller (.submitPush rfl))
  have run := run.andThen 0 (.opening (.popDocument rfl))
  have run := run.andThen 0 (.opening (.openDocument rfl))
  have run := run.andThen 0 (.opening (.openSource rfl))
  have run := run.andThen 0 (.opening (@OpenExec.countPages _ 0 1 1 1 rfl))
  have published := run.andThen 0 (.opening (.publishPages rfl))
  constructor
  · have run := published.andThen 5 (.caller (.ticketCancel 0 rfl))
    have run := run.andThen 5 (.request .cancel)
    have run := run.andThen 5 (.request (.readSource rfl))
    have run := run.andThen 5 (.request (.queueReschedule rfl))
    have run := run.andThen 5 (.request (.setPending rfl))
    have run := run.andThen 5 (.request (.pushPending rfl))
    have run := run.andThen 1 (.schedule (.popReschedule rfl rfl))
    have run := run.andThen 1 (.schedule .clearPending)
    have run := run.andThen 1
      (.schedule (.cancelRest (d := 0) rfl rfl (by decide) rfl (by decide)))
    have run := run.andThen 1 (.schedule .countCancelled)
    have run := run.andThen 1 (.request (.finishRequest rfl))
    have run := run.andThen 1 (.request .retireRequest)
    have run := run.andThen 1 (.request .callOnFinish)
    have run := run.andThen 0 (.opening .callOnDocument)
    refine ⟨_, ⟨smallOptions, false, 1, run⟩, rfl, ?_⟩
    rintro ⟨finish, -⟩
    exact finish [.onFinish none] 1 (List.prefix_refl _) none (by simp)
  · have run := published.andThen 5 (.caller (.ticketRelease 0 1 rfl))
    have run := run.andThen 5 (.request (.releaseSlots Nat.one_ne_zero rfl))
    have run := run.andThen 5 (.request (.addSlots rfl))
    have run := run.andThen 5 (.request (.queueReschedule rfl))
    have run := run.andThen 5 (.request (.setPending rfl))
    have run := run.andThen 5 (.request (.pushPending rfl))
    have run := run.andThen 1 (.schedule (.popReschedule rfl rfl))
    have run := run.andThen 1 (.schedule .clearPending)
    have run := run.andThen 1 (.schedule (.schedulePages (d := 0) rfl rfl (by decide) rfl))
    have run := run.andThen 1 (.schedule (.schedulePage (d := 0) (by decide) (by decide) rfl))
    have run := run.andThen 2 (.stage (.popRender rfl))
    have run := run.andThen 2 (.stage (.renderPage rfl))
    have run := run.andThen 2 (.stage (@StageExec.rasterize _ ⟨0, 1⟩ none (fun _ => rfl) rfl))
    have run := run.andThen 2 (.stage (.pageRendered rfl))
    have run := run.andThen 2 (.stage (.pushInference (Or.inr (by decide)) rfl))
    have run := run.andThen 3 (.stage (.popInference rfl))
    have run := run.andThen 3 (.stage (.recognizePage rfl))
    have run := run.andThen 3 (.stage .runRecognition)
    have run := run.andThen 3 (.stage (.pushAssembly (Or.inr (by decide)) rfl))
    have run := run.andThen 4 (.stage (.popAssembly rfl))
    have run := run.andThen 4 (.stage (.assemblePage rfl))
    have run := run.andThen 4 (.stage .callOnPage)
    refine ⟨_, ⟨smallOptions, false, 1, run⟩, rfl, ?_⟩
    rintro ⟨-, document⟩
    obtain ⟨pageCount, h⟩ := document [] 1 (List.prefix_refl _)
    simp at h

end GRParse.Scheduler
