import GRParse.Scheduler.Ledger
import Mathlib.Data.Multiset.OrderedMonoid

/-!
# The accounting of pages

Every page of an admitted span is in one place: still to be scheduled, under way, about
to be subtracted, or subtracted (`Ledger.Accounts.partition`).  The counter
`remaining_pages` is the number of pages not yet subtracted, so it reaches zero once, with
the last page, and a document is finished by a page only then (`Ledger.Finishing`).
-/

namespace GRParse.Scheduler

open Multiset Token

/-! ### The pages tokens stand for -/

/-- Whether a token belongs to the opening of the document. -/
def Token.isOpener : Token → Bool
  | .submitting | .opening | .announcing | .returning => true
  | _ => false

/-- The page a token has under way. -/
def Token.inFlight : Token → Multiset ℤ
  | .held pageNumber | .leaving pageNumber => {pageNumber}
  | _ => 0

/-- The pages a token is about to subtract. -/
def Token.toCount : Token → Multiset ℤ
  | .settled pages => pages
  | _ => 0

/-- How many tokens belong to the opening of the document. -/
def openers (tokens : Multiset Token) : ℕ :=
  tokens.countP (·.isOpener)

/-- The pages under way. -/
def inFlight (tokens : Multiset Token) : Multiset ℤ :=
  tokens.bind Token.inFlight

/-- The pages about to be subtracted. -/
def toCount (tokens : Multiset Token) : Multiset ℤ :=
  tokens.bind Token.toCount

@[simp]
theorem openers_add (a b : Multiset Token) :
  openers (a + b) = openers a + openers b
  := countP_add _ a b

@[simp]
theorem openers_zero :
  openers 0 = 0
  := rfl

@[simp]
theorem openers_cons (t : Token) (a : Multiset Token) :
  openers (t ::ₘ a) = (if t.isOpener then 1 else 0) + openers a
  := by
  rw [openers, countP_cons, add_comm]
  rfl

@[simp]
theorem openers_singleton (t : Token) :
  openers {t} = if t.isOpener then 1 else 0
  := openers_cons t 0

@[simp]
theorem inFlight_add (a b : Multiset Token) :
  inFlight (a + b) = inFlight a + inFlight b
  := add_bind a b _

@[simp]
theorem inFlight_zero :
  inFlight 0 = 0
  := rfl

@[simp]
theorem inFlight_cons (t : Token) (a : Multiset Token) :
  inFlight (t ::ₘ a) = t.inFlight + inFlight a
  := cons_bind t a _

@[simp]
theorem inFlight_singleton (t : Token) :
  inFlight {t} = t.inFlight
  := singleton_bind t _

@[simp]
theorem toCount_add (a b : Multiset Token) :
  toCount (a + b) = toCount a + toCount b
  := add_bind a b _

@[simp]
theorem toCount_zero :
  toCount 0 = 0
  := rfl

@[simp]
theorem toCount_cons (t : Token) (a : Multiset Token) :
  toCount (t ::ₘ a) = t.toCount + toCount a
  := cons_bind t a _

@[simp]
theorem toCount_singleton (t : Token) :
  toCount {t} = t.toCount
  := singleton_bind t _

@[simp]
theorem openers_filter (a : Multiset Token) :
  openers (a.filter (· ≠ .pending)) = openers a
  := by
  induction a using Multiset.induction with
  | empty => rfl
  | cons t a ih => cases t <;> simp_all [isOpener]

@[simp]
theorem inFlight_filter (a : Multiset Token) :
  inFlight (a.filter (· ≠ .pending)) = inFlight a
  := by
  induction a using Multiset.induction with
  | empty => rfl
  | cons t a ih => cases t <;> simp_all [Token.inFlight]

@[simp]
theorem toCount_filter (a : Multiset Token) :
  toCount (a.filter (· ≠ .pending)) = toCount a
  := by
  induction a using Multiset.induction with
  | empty => rfl
  | cons t a ih => cases t <;> simp_all [Token.toCount]

@[simp]
theorem openers_finishing (n : ℕ) :
  openers (Multiset.replicate n .finishing) = 0
  := by
  induction n with
  | zero => rfl
  | succ n ih => simp [replicate_succ, ih, isOpener]

@[simp]
theorem inFlight_finishing (n : ℕ) :
  inFlight (Multiset.replicate n .finishing) = 0
  := by
  induction n with
  | zero => rfl
  | succ n ih => simp [replicate_succ, ih, Token.inFlight]

@[simp]
theorem toCount_finishing (n : ℕ) :
  toCount (Multiset.replicate n .finishing) = 0
  := by
  induction n with
  | zero => rfl
  | succ n ih => simp [replicate_succ, ih, Token.toCount]

/-- An opener is counted. -/
theorem openers_pos {t : Token} {tokens : Multiset Token} (h : t ∈ tokens)
    (opener : t.isOpener = true) :
  0 < openers tokens
  := countP_pos.mpr ⟨t, h, opener⟩

/-! ### What an entry can do -/

variable {stopping joined : Bool} {r r' : Request} {taken put : Multiset Token}

/-- An entry does not multiply the openers of a document. -/
theorem Act.openers_le (act : Act stopping joined r taken r' put) :
  openers put ≤ openers taken
  := by
  cases act with
  | complete outcome => split_ifs <;> simp [isOpener]
  | count => split_ifs <;> simp [isOpener]
  | _ => simp [isOpener]

/-- Whether a token stands for a document whose pages are not counted yet. -/
def Token.isUnopened : Token → Bool
  | .submitting | .opening => true
  | _ => false

/-- A document not opened yet was not opened before. -/
theorem Act.unopened (act : Act stopping joined r taken r' put)
    (h : ∃ t ∈ put, t.isUnopened = true) :
  ∃ t ∈ taken, t.isUnopened = true
  := by
  cases act with
  | complete outcome => split_ifs at h <;> simp_all [isUnopened]
  | count => split_ifs at h <;> simp_all [isUnopened]
  | _ => simp_all [isUnopened]

/-- The render queue is filled only for a document with pages. -/
theorem Act.filling (act : Act stopping joined r taken r' put) (h : .filling ∈ put) :
  0 < r.totalPages ∨ .filling ∈ taken
  := by
  cases act with
  | schedulePages published live => exact Or.inl published
  | schedulePage left => simp
  | complete outcome => split_ifs at h <;> simp at h
  | count => split_ifs at h <;> simp at h
  | _ => simp at h

/-- Pages are subtracted once they left the stages, or were never scheduled. -/
theorem Act.settled {pages : List ℤ} (act : Act stopping joined r taken r' put)
    (h : .settled pages ∈ put) :
  0 < r.totalPages ∨ inFlight taken ≠ 0
  := by
  cases act with
  | cancelRest published left => exact Or.inl published
  | complete outcome => simp [Token.inFlight]
  | count => split_ifs at h <;> simp at h
  | _ => simp at h

/-- A document is announced with pages. -/
theorem Act.announced (act : Act stopping joined r taken r' put) (h : .announcing ∈ put) :
  0 < r'.totalPages
  := by
  cases act with
  | publish one_le span =>
    simp only
    omega
  | complete outcome => split_ifs at h <;> simp at h
  | count => split_ifs at h <;> simp at h
  | _ => simp at h

/-- The accounts of two requests are the same. -/
structure Request.SameAccounts (r r' : Request) : Prop where
  totalPages : r'.totalPages = r.totalPages
  firstPage : r'.firstPage = r.firstPage
  nextPage : r'.nextPageToSchedule = r.nextPageToSchedule
  remaining : r'.remainingPages = r.remainingPages
  counted : r'.counted = r.counted
  outcomes : r'.outcomes = r.outcomes

/-- What an entry does to the accounts: nothing, or one of five things. -/
inductive Booking (r : Request) (taken : Multiset Token) (r' : Request)
    (put : Multiset Token) : Prop where
  | none (same : r.SameAccounts r') (flight : inFlight put = inFlight taken)
      (count : toCount put = toCount taken)
  | publish (first last : ℤ) (one_le : 1 ≤ first) (span : first ≤ last)
      (unopened : taken = {.opening}) (announced : put = {.announcing})
      (totalPages : r'.totalPages = last) (firstPage : r'.firstPage = first)
      (nextPage : r'.nextPageToSchedule = first)
      (remaining : r'.remainingPages = last - first + 1)
      (counted : r'.counted = r.counted) (outcomes : r'.outcomes = r.outcomes)
  | cancelRest (published : 0 < r.totalPages) (left : r.nextPageToSchedule ≤ r.totalPages)
      (flight : inFlight put = inFlight taken) (none_counted : toCount taken = 0)
      (count : toCount put = pageSpan r.nextPageToSchedule r.totalPages)
      (same : r.SameAccounts { r' with
        nextPageToSchedule := r.nextPageToSchedule
        outcomes := r.outcomes })
      (nextPage : r'.nextPageToSchedule = r.totalPages + 1)
      (outcomes : r'.outcomes = r.outcomes ++
        (pageSpan r.nextPageToSchedule r.totalPages).map (·, .cancelled))
  | schedule (left : r.nextPageToSchedule ≤ r.totalPages) (filling : .filling ∈ taken)
      (flight : inFlight put = r.nextPageToSchedule ::ₘ inFlight taken)
      (count : toCount put = toCount taken)
      (same : r.SameAccounts { r' with nextPageToSchedule := r.nextPageToSchedule })
      (nextPage : r'.nextPageToSchedule = r.nextPageToSchedule + 1)
  | complete (pageNumber : ℤ) (outcome : PageOutcome)
      (flight : pageNumber ::ₘ inFlight put = inFlight taken)
      (count : toCount put = pageNumber ::ₘ toCount taken)
      (same : r.SameAccounts { r' with outcomes := r.outcomes })
      (outcomes : r'.outcomes = r.outcomes ++ [(pageNumber, outcome)])
  | count (pages : List ℤ) (flight : inFlight put = inFlight taken)
      (count : toCount taken = pages + toCount put)
      (same : r.SameAccounts { r' with
        remainingPages := r.remainingPages
        counted := r.counted })
      (remaining : r'.remainingPages = r.remainingPages - pages.length)
      (counted : r'.counted = r.counted ++ pages)

/-- Every entry is a booking. -/
theorem Act.booking (act : Act stopping joined r taken r' put) :
  Booking r taken r' put
  := by
  cases act with
  | @publish first last one_le span =>
    exact .publish first last one_le span rfl rfl rfl rfl rfl rfl rfl rfl
  | cancelRest published left =>
    exact .cancelRest published left rfl rfl (toCount_singleton _)
      ⟨rfl, rfl, rfl, rfl, rfl, rfl⟩ rfl rfl
  | schedulePage left =>
    apply Booking.schedule left (by simp)
    · simp [Token.inFlight]
    · simp [Token.toCount]
    · exact ⟨rfl, rfl, rfl, rfl, rfl, rfl⟩
    · rfl
  | @complete pageNumber outcome =>
    apply Booking.complete pageNumber outcome
    · split_ifs <;> simp [Token.inFlight]
    · split_ifs <;> simp [Token.toCount]
    · exact ⟨rfl, rfl, rfl, rfl, rfl, rfl⟩
    · rfl
  | @count pages =>
    apply Booking.count pages
    · split_ifs <;> simp [Token.inFlight]
    · split_ifs <;> simp [Token.toCount]
    · exact ⟨rfl, rfl, rfl, rfl, rfl, rfl⟩
    · rfl
    · rfl
  | _ =>
    apply Booking.none
    · exact ⟨rfl, rfl, rfl, rfl, rfl, rfl⟩
    · simp [Token.inFlight]
    · simp [Token.toCount]

/-- The page count changes only when it is published. -/
theorem Booking.totalPages (booking : Booking r taken r' put) :
  r'.totalPages = r.totalPages ∨ taken = {.opening} ∧ put = {.announcing} ∧ 0 < r'.totalPages
  := by
  cases booking with
  | none same => exact Or.inl same.totalPages
  | publish first last one_le span unopened announced totalPages =>
    apply Or.inr
    refine ⟨unopened, announced, ?_⟩
    omega
  | cancelRest _ _ _ _ _ same => exact Or.inl same.totalPages
  | schedule _ _ _ _ same => exact Or.inl same.totalPages
  | complete _ _ _ _ same => exact Or.inl same.totalPages
  | count _ _ _ same => exact Or.inl same.totalPages

/-- The counter changes only when the page count is published or pages are subtracted. -/
theorem Booking.remaining (booking : Booking r taken r' put) :
  r'.remainingPages = r.remainingPages ∨ taken = {.opening} ∨
    ∃ pages : List ℤ, toCount taken = pages + toCount put ∧
      r'.remainingPages = r.remainingPages - pages.length
  := by
  cases booking with
  | none same => exact Or.inl same.remaining
  | publish first last one_le span unopened => exact Or.inr (Or.inl unopened)
  | cancelRest _ _ _ _ _ same => exact Or.inl same.remaining
  | schedule _ _ _ _ same => exact Or.inl same.remaining
  | complete _ _ _ _ same => exact Or.inl same.remaining
  | count pages _ count _ remaining => exact Or.inr (Or.inr ⟨pages, count, remaining⟩)

/-! ### The accounts of a document -/

/-- How far the opening of a document has come. -/
structure Ledger.Opening (l : Ledger) : Prop where
  atMostOne : openers l.tokens ≤ 1
  unopened : (∃ t ∈ l.tokens, t.isUnopened = true) → l.request.totalPages = 0
  filling : .filling ∈ l.tokens → 0 < l.request.totalPages
  announced : .announcing ∈ l.tokens → 0 < l.request.totalPages
  fresh : l.submitted = false → l.request.totalPages = 0 ∧ openers l.tokens = 0

/-- Where the pages of a document are. -/
structure Ledger.Accounts (l : Ledger) : Prop where
  unpublished : l.request.totalPages = 0 → l.request.counted = [] ∧ l.request.outcomes = [] ∧
    inFlight l.tokens = 0 ∧ toCount l.tokens = 0 ∧ l.request.remainingPages = 0
  bounds : l.request.totalPages ≠ 0 → 1 ≤ l.request.firstPage ∧
    l.request.firstPage ≤ l.request.totalPages ∧
    l.request.firstPage ≤ l.request.nextPageToSchedule ∧
    l.request.nextPageToSchedule ≤ l.request.totalPages + 1
  partition : l.request.totalPages ≠ 0 →
    (l.request.counted : Multiset ℤ) + toCount l.tokens + inFlight l.tokens +
        (pageSpan l.request.nextPageToSchedule l.request.totalPages : Multiset ℤ) =
      pageSpan l.request.firstPage l.request.totalPages
  outcomes : (l.request.outcomes.map (·.1) : Multiset ℤ) =
    (l.request.counted : Multiset ℤ) + toCount l.tokens
  remaining : l.request.totalPages ≠ 0 →
    l.request.remainingPages + l.request.counted.length =
      l.request.totalPages - l.request.firstPage + 1
  settled : ∀ pages, .settled pages ∈ l.tokens → l.request.totalPages ≠ 0

namespace Ledger

variable {l l' : Ledger} {taken : Multiset Token}

/-- A move keeps the opening of a document in order. -/
theorem Opening.move (h : l.Opening) (move : l.Move taken l') :
  l'.Opening
  := by
  cases move with
  | idle => exact h
  | @act taken put rest r holds act =>
    have hle := act.openers_le
    have atMostOne := h.atMostOne
    have unopened := h.unopened
    have filling := h.filling
    have announced := h.announced
    simp only [holds, openers_add, mem_add] at atMostOne unopened filling announced
    obtain htotal | ⟨rfl, rfl, hpos⟩ := act.booking.totalPages
    · constructor
      · rw [openers_add]
        omega
      · rintro ⟨t, ht, hunopened⟩
        simp only [htotal]
        obtain ht | ht := mem_add.mp ht
        · obtain ⟨t', ht', hunopened'⟩ := act.unopened ⟨t, ht, hunopened⟩
          exact unopened ⟨t', Or.inl ht', hunopened'⟩
        · exact unopened ⟨t, Or.inr ht, hunopened⟩
      · intro ht
        simp only [htotal]
        obtain ht | ht := mem_add.mp ht
        · obtain hpos | ht := act.filling ht
          · exact hpos
          · exact filling (Or.inl ht)
        · exact filling (Or.inr ht)
      · intro ht
        obtain ht | ht := mem_add.mp ht
        · exact act.announced ht
        · simp only [htotal]
          exact announced (Or.inr ht)
      · intro new
        obtain ⟨hzero, hnone⟩ := h.fresh new
        rw [holds, openers_add] at hnone
        refine ⟨htotal.trans hzero, ?_⟩
        rw [openers_add]
        omega
    · have hnone : openers rest = 0 := by
        simp only [openers_singleton, isOpener, if_true] at atMostOne
        omega
      constructor
      · simp [hnone, isOpener]
      · rintro ⟨t, ht, hunopened⟩
        obtain ht | ht := mem_add.mp ht
        · rw [mem_singleton.mp ht] at hunopened
          cases hunopened
        · have hopener : t.isOpener = true := by
            cases t <;> simp_all [isUnopened, isOpener]
          have hpos' := openers_pos ht hopener
          omega
      · exact fun _ => hpos
      · exact fun _ => hpos
      · intro new
        obtain ⟨-, hnone⟩ := h.fresh new
        simp [holds, isOpener] at hnone
  | submit tuning pageWindow new =>
    obtain ⟨hzero, hnone⟩ := h.fresh new
    constructor
    · simp [hnone, isOpener]
    · exact fun _ => rfl
    · intro ht
      have hpos := h.filling (by simpa using ht)
      omega
    · intro ht
      have hpos := h.announced (by simpa using ht)
      omega
    · simp
  | stop =>
    constructor
    · simpa using h.atMostOne
    · rintro ⟨t, ht, hunopened⟩
      exact h.unopened ⟨t, mem_of_mem_filter ht, hunopened⟩
    · exact fun ht => h.filling (mem_of_mem_filter ht)
    · exact fun ht => h.announced (mem_of_mem_filter ht)
    · simpa using h.fresh
  | join stopping external => exact ⟨h.atMostOne, h.unopened, h.filling, h.announced, h.fresh⟩
  | abandon joined old times =>
    constructor
    · simpa using h.atMostOne
    · rintro ⟨t, ht, hunopened⟩
      obtain ht | ht := mem_add.mp ht
      · rw [eq_of_mem_replicate ht] at hunopened
        cases hunopened
      · exact h.unopened ⟨t, ht, hunopened⟩
    · intro ht
      apply h.filling
      simpa [mem_replicate] using ht
    · intro ht
      apply h.announced
      simpa [mem_replicate] using ht
    · simpa using h.fresh

/-- A move keeps the accounts of a document. -/
theorem Accounts.move (h : l.Accounts) (opening : l.Opening) (move : l.Move taken l') :
  l'.Accounts
  := by
  cases move with
  | idle => exact h
  | @act taken put rest r holds act =>
    have ⟨unpublished, bounds, partition, outcomes, remaining, settled⟩ := h
    simp only [holds, inFlight_add, toCount_add] at unpublished partition outcomes
    have settled' : ∀ pages, .settled pages ∈ put + rest → r.totalPages ≠ 0 := by
      intro pages ht
      have hne : l.request.totalPages ≠ 0 := by
        obtain ht | ht := mem_add.mp ht
        · obtain hpos | hflight := act.settled ht
          · omega
          · intro hzero
            obtain ⟨-, -, hnone, -, -⟩ := unpublished hzero
            exact hflight (add_eq_zero.mp hnone).1
        · exact settled pages (by simp [holds, ht])
      obtain htotal | ⟨-, -, hpos⟩ := act.booking.totalPages
      · rwa [htotal]
      · omega
    cases act.booking with
    | none same flight count =>
      obtain ⟨htotal, hfirst, hnext, hremaining, hcounted, houtcomes⟩ := same
      constructor
      · simpa [htotal, hcounted, houtcomes, flight, count, hremaining] using unpublished
      · simpa [htotal, hfirst, hnext] using bounds
      · simpa [htotal, hfirst, hnext, hcounted, flight, count] using partition
      · simpa [hcounted, houtcomes, count] using outcomes
      · simpa [htotal, hfirst, hremaining, hcounted] using remaining
      · exact settled'
    | publish first last one_le span unopened announced totalPages firstPage nextPage hremaining
        counted houtcomes =>
      -- before the publication nothing was booked
      have hzero : l.request.totalPages = 0 := by
        apply opening.unopened
        use .opening
        simp [holds, unopened, Token.isUnopened]
      obtain ⟨hcounted, hnone, hflight, hcount, -⟩ := unpublished hzero
      simp only [unopened, inFlight_singleton, toCount_singleton, Token.inFlight,
        Token.toCount, zero_add] at hflight hcount
      constructor
      · intro hzero'
        simp only [totalPages] at hzero'
        omega
      · intro _
        simp only [totalPages, firstPage, nextPage]
        omega
      · intro _
        simp [announced, Token.inFlight, Token.toCount, counted, hcounted, hflight, hcount,
          totalPages, firstPage, nextPage]
      · simp [announced, Token.toCount, counted, hcounted, houtcomes, hnone, hcount]
      · intro _
        simp [counted, hcounted, totalPages, firstPage, hremaining]
      · exact settled'
    | cancelRest published left flight none_counted count same nextPage houtcomes =>
      obtain ⟨htotal, hfirst, -, hremaining, hcounted, -⟩ := same
      simp only at htotal hfirst hremaining hcounted
      have hne : l.request.totalPages ≠ 0 := by omega
      have hempty : pageSpan (l.request.totalPages + 1) l.request.totalPages = [] :=
        pageSpan_nil (by omega)
      constructor
      · intro hzero
        simp only [htotal] at hzero
        omega
      · intro _
        have hbounds := bounds hne
        simp only [htotal, hfirst, nextPage]
        omega
      · intro _
        have hpartition := partition hne
        simp only [none_counted, zero_add] at hpartition
        simp only [toCount_add, inFlight_add, htotal, hfirst, hcounted, nextPage, flight, count,
          hempty, coe_nil, add_zero, ← hpartition]
        ac_rfl
      · simp only [toCount_add, count, houtcomes, hcounted, List.map_append, List.map_map,
          ← coe_add, outcomes, none_counted, zero_add, Function.comp_def, List.map_id']
        ac_rfl
      · intro _
        simpa [htotal, hfirst, hremaining, hcounted] using remaining hne
      · exact settled'
    | schedule left filling flight count same nextPage =>
      obtain ⟨htotal, hfirst, -, hremaining, hcounted, houtcomes⟩ := same
      simp only at htotal hfirst hremaining hcounted houtcomes
      have hpos : 0 < l.request.totalPages := by
        apply opening.filling
        simp [holds, filling]
      have hne : l.request.totalPages ≠ 0 := by omega
      constructor
      · intro hzero
        simp only [htotal] at hzero
        omega
      · intro _
        have hbounds := bounds hne
        simp only [htotal, hfirst, nextPage]
        omega
      · intro _
        have hpartition := partition hne
        rw [pageSpan_cons left] at hpartition
        simp only [toCount_add, inFlight_add, htotal, hfirst, hcounted, nextPage, flight, count,
          ← hpartition, ← cons_coe, ← singleton_add]
        ac_rfl
      · simpa [hcounted, houtcomes, count] using outcomes
      · intro _
        simpa [htotal, hfirst, hremaining, hcounted] using remaining hne
      · exact settled'
    | complete pageNumber outcome flight count same houtcomes =>
      obtain ⟨htotal, hfirst, hnext, hremaining, hcounted, -⟩ := same
      simp only at htotal hfirst hnext hremaining hcounted
      constructor
      · intro hzero
        obtain ⟨-, -, hflight, -, -⟩ := unpublished (htotal.symm.trans hzero)
        simp [← flight] at hflight
      · simpa [htotal, hfirst, hnext] using bounds
      · intro hne
        have hpartition := partition (htotal ▸ hne)
        simp only [toCount_add, inFlight_add, htotal, hfirst, hcounted, hnext, ← flight, count,
          ← hpartition, ← singleton_add]
        ac_rfl
      · simp only [toCount_add, count, houtcomes, hcounted, List.map_append, List.map_cons,
          List.map_nil, ← coe_add, outcomes, coe_singleton,
          ← singleton_add]
        ac_rfl
      · simpa [htotal, hfirst, hremaining, hcounted] using remaining
      · exact settled'
    | count pages flight count same hremaining hcounted =>
      obtain ⟨htotal, hfirst, hnext, -, -, houtcomes⟩ := same
      simp only at htotal hfirst hnext houtcomes
      constructor
      · intro hzero
        obtain ⟨hnone, hnone', hflight, hcount, hzero'⟩ := unpublished (htotal.symm.trans hzero)
        rw [count, add_eq_zero, add_eq_zero, coe_eq_zero] at hcount
        simp [hcounted, houtcomes, flight, hremaining, hnone, hnone', hflight, hcount, hzero']
      · simpa [htotal, hfirst, hnext] using bounds
      · intro hne
        have hpartition := partition (htotal ▸ hne)
        simp only [toCount_add, inFlight_add, htotal, hfirst, hnext, hcounted, flight, count,
          ← hpartition, ← coe_add]
        ac_rfl
      · simp only [toCount_add, count, houtcomes, hcounted, ← coe_add, outcomes]
        ac_rfl
      · intro hne
        have hsize := remaining (htotal ▸ hne)
        simp only [htotal, hfirst, hremaining, hcounted, List.length_append, Nat.cast_add]
        omega
      · exact settled'
  | submit tuning pageWindow new =>
    obtain ⟨hzero, -⟩ := opening.fresh new
    obtain ⟨-, -, hflight, hcount, -⟩ := h.unpublished hzero
    have hsettled : ∀ pages, .settled pages ∉ l.tokens := fun pages ht => h.settled pages ht hzero
    constructor <;>
      simp [Request.submitted, hflight, hcount, hsettled, Token.inFlight, Token.toCount]
  | stop =>
    constructor
    · simpa using h.unpublished
    · exact h.bounds
    · simpa using h.partition
    · simpa using h.outcomes
    · exact h.remaining
    · exact fun pages ht => h.settled pages (mem_of_mem_filter ht)
  | join stopping external =>
    exact ⟨h.unpublished, h.bounds, h.partition, h.outcomes, h.remaining, h.settled⟩
  | abandon joined old times =>
    constructor
    · simpa using h.unpublished
    · exact h.bounds
    · simpa using h.partition
    · simpa using h.outcomes
    · exact h.remaining
    · intro pages ht
      apply h.settled pages
      simpa [mem_replicate] using ht

/-- Once every page is subtracted, no page is left anywhere. -/
theorem Accounts.none_left (h : l.Accounts) (published : l.request.totalPages ≠ 0)
    (none_left : l.request.remainingPages = 0) :
  toCount l.tokens = 0 ∧ inFlight l.tokens = 0 ∧
    l.request.totalPages < l.request.nextPageToSchedule
  := by
  have hpartition := congrArg card (h.partition published)
  have hremaining := h.remaining published
  have hbounds := h.bounds published
  have hspan : ((pageSpan l.request.firstPage l.request.totalPages).length : ℤ) = _ :=
    length_pageSpan (by omega)
  simp only [card_add, coe_card] at hpartition
  have hcount : (toCount l.tokens).card = 0 := by omega
  have hflight : (inFlight l.tokens).card = 0 := by omega
  refine ⟨card_eq_zero.mp hcount, card_eq_zero.mp hflight, ?_⟩
  have hrest : ((pageSpan l.request.nextPageToSchedule l.request.totalPages).length : ℤ) = _ :=
    length_pageSpan (by omega)
  omega

end Ledger

end GRParse.Scheduler
