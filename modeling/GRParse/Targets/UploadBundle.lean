import GRParse.Lib.Lists
import GRParse.Lib.ThreadPool
import GRParse.Targets.ZipWriter
import Mathlib.Data.List.DropRight
import Mathlib.Data.List.Count

/-!
# Bundles that are uploaded

The files of a bundle are tasks of a pool of threads with a bounded queue, which other calls use as
well.  A task that the queue refuses is run by the thread that submits it.  The first upload that
fails keeps tasks that have not started from uploading.

A task is in one place at a time, and so is its report: what is returned, or thrown, is said when
nothing is outstanding any more.
-/

namespace GRParse.UploadBundle

open ThreadPool Zip List

/-! ### The call -/

structure UploadedObject where
  key : List UInt8 := []
  etag : List UInt8 := []
  sizeBytes : ℕ := 0
  deriving DecidableEq

/-- A task in the queue: an upload of this call, by the index of its file, or what another call has
submitted. -/
inductive Task where
  | upload (index : ℕ)
  | other

/-- The pool, and the variables of the call. -/
structure State where
  tasks : List Task := []
  stopping : Bool := false
  written : List UploadedObject
  stored : List Bool
  failed : Bool := false
  failure : String := ""
  outstanding : ℕ
  /-- What the call has returned, or the message and the list that it has thrown. -/
  answer : Option (Except (String × List UploadedObject) (List UploadedObject)) := none

/-- What a thread has still to do. -/
inductive Op where
  /-- Offer the task of a file to the pool. -/
  | submit (index : ℕ)
  /-- The loop of a worker. -/
  | take
  /-- What the other calls of the process do to the pool. -/
  | others
  /-- `upload_one`: read the flag. -/
  | check (index : ℕ)
  /-- `put_object`. -/
  | put (index : ℕ)
  /-- What `put_object` returns is noted. -/
  | store (index : ℕ) (etag : List UInt8)
  /-- What `put_object` throws is caught. -/
  | fail (index : ℕ) (message : String)
  /-- The failure is recorded under its mutex. -/
  | record (index : ℕ) (message : String)
  /-- `Completion::finish`. -/
  | finish (index : ℕ)
  /-- `Completion::wait`. -/
  | wait
  /-- Return or throw. -/
  | answer

structure Config where
  keyPrefix : List UInt8
  queueCapacity : ℕ

/-- `key_for`. -/
def Config.keyFor (config : Config) (path : List UInt8) : List UInt8 :=
  if config.keyPrefix = [] then path
  else config.keyPrefix.rdropWhile (fun byte => byte = 0x2f) ++ [0x2f] ++ path

variable (config : Config) (files : List BundleFile)

/-- What is noted of a file before it is uploaded. -/
def uploaded (file : BundleFile) (etag : List UInt8) : UploadedObject where
  key := config.keyFor file.path
  etag
  sizeBytes := file.bytes.length

def State.start : State where
  written := List.replicate files.length {}
  stored := List.replicate files.length false
  outstanding := files.length

/-- The objects whose upload is noted. -/
def State.partialList (s : State) : List UploadedObject :=
  (List.range s.written.length).filterMap fun index =>
    if s.stored.getD index false then s.written[index]? else none

/-- What an operation does, and the operations it unfolds to. -/
inductive Exec (s : State) : Op → State → List Op → Prop where
  | submit {index : ℕ} (room : ¬ s.stopping ∧ s.tasks.length < config.queueCapacity) :
      Exec s (.submit index) { s with tasks := s.tasks ++ [.upload index] } []
  | refuse {index : ℕ} (full : s.stopping ∨ config.queueCapacity ≤ s.tasks.length) :
      Exec s (.submit index) s [.check index]
  | take {index : ℕ} {rest : List Task} (front : s.tasks = .upload index :: rest) :
      Exec s .take { s with tasks := rest } [.check index, .take]
  | takeOther {rest : List Task} (front : s.tasks = .other :: rest) :
      Exec s .take { s with tasks := rest } [.take]
  | exit (empty : s.tasks = []) (stops : s.stopping) : Exec s .take s []
  | other (room : ¬ s.stopping ∧ s.tasks.length < config.queueCapacity) :
      Exec s .others { s with tasks := s.tasks ++ [.other] } [.others]
  | stop : Exec s .others { s with stopping := true } [.others]
  | skip {index : ℕ} (failed : s.failed) : Exec s (.check index) s [.finish index]
  | go {index : ℕ} (file : BundleFile) (sound : ¬ s.failed) (at_index : files[index]? = some file) :
      Exec s (.check index)
        { s with written := s.written.set index (uploaded config file []) } [.put index]
  | returned {index : ℕ} (etag : List UInt8) : Exec s (.put index) s [.store index etag]
  | thrown {index : ℕ} (message : String) : Exec s (.put index) s [.fail index message]
  | store {index : ℕ} {etag : List UInt8} (object : UploadedObject)
      (at_index : s.written[index]? = some object) :
      Exec s (.store index etag)
        { s with
          written := s.written.set index { object with etag }
          stored := s.stored.set index true }
        [.finish index]
  | failFirst {index : ℕ} {message : String} (first : ¬ s.failed) :
      Exec s (.fail index message) { s with failed := true } [.record index message]
  | failAgain {index : ℕ} {message : String} (again : s.failed) :
      Exec s (.fail index message) s [.finish index]
  | record {index : ℕ} {message : String} :
      Exec s (.record index message) { s with failure := message } [.finish index]
  | finish {index : ℕ} :
      Exec s (.finish index) { s with outstanding := s.outstanding - 1 } []
  | wait (done : s.outstanding = 0) : Exec s .wait s [.answer]
  | throwFailure (failed : s.failed) :
      Exec s .answer { s with answer := some (.error (s.failure, s.partialList)) } []
  | returnWritten (sound : ¬ s.failed) :
      Exec s .answer { s with answer := some (.ok s.written) } []

/-- The thread that calls, the workers, and the other calls of the process.  Without files the call
returns at once. -/
def start (workers : ℕ) : ThreadPool.Config State Unit Op where
  shared := .start files
  threads :=
    ⟨(), if files = [] then [.answer] else (List.range files.length).map .submit ++ [.wait]⟩ ::
      ⟨(), [.others]⟩ :: List.replicate workers ⟨(), [.take]⟩

/-! ### What has happened -/

/-- What an observer notes: the files that a task has handled, those of which `put_object` has
returned, and with what, those of which it has thrown, those that were skipped, and those that have
been reported. -/
structure History where
  handled : List ℕ := []
  returned : List (ℕ × List UInt8) := []
  failures : List (ℕ × String) := []
  skipped : List ℕ := []
  reported : List ℕ := []

def History.note (h : History) (c : ThreadPool.Config State Unit Op) (op : Op)
    (_ : ThreadPool.Config State Unit Op) : History :=
  match op with
  | .check index =>
    { h with
      handled := h.handled ++ [index]
      skipped := if c.shared.failed then h.skipped ++ [index] else h.skipped }
  | .store index etag => { h with returned := h.returned ++ [(index, etag)] }
  | .fail index message => { h with failures := h.failures ++ [(index, message)] }
  | .finish index => { h with reported := h.reported ++ [index] }
  | _ => h

/-- The object of a file, if its upload has returned. -/
def History.object? (h : History) (index : ℕ) : Option UploadedObject :=
  files[index]?.bind fun file => (h.returned.lookup index).map (uploaded config file)

/-- The objects of the files whose uploads have returned, in the order of the files. -/
def History.objects (h : History) : List UploadedObject :=
  (List.range files.length).filterMap (h.object? config files)

/-! ### Where a file is -/

/-- The file that an operation is about to handle. -/
def Op.waiting : Op → List ℕ
  | .submit index | .check index => [index]
  | _ => []

def Task.waiting : Task → List ℕ
  | .upload index => [index]
  | .other => []

/-- The file that an operation is to report. -/
def Op.working : Op → List ℕ
  | .put index | .store index _ | .fail index _ | .record index _ | .finish index => [index]
  | _ => []

/-- The file that an operation uploads. -/
def Op.uploading : Op → List ℕ
  | .put index | .store index _ | .fail index _ => [index]
  | _ => []

/-- Every file is somewhere once: it waits for being handled, it is handled and waits for being
reported, or it is reported, and it is handled in one of three ways. -/
structure Places (count : ℕ) (s : State) (ops : List Op) (h : History) : Prop where
  handled : ∀ index, h.handled.count index + (s.tasks.flatMap Task.waiting).count index +
    (ops.flatMap Op.waiting).count index = (List.range count).count index
  reported : ∀ index, h.reported.count index + (ops.flatMap Op.working).count index =
    h.handled.count index
  outcome : ∀ index, (h.returned.map Prod.fst).count index + (h.failures.map Prod.fst).count index +
    h.skipped.count index + (ops.flatMap Op.uploading).count index = h.handled.count index
  outstanding : s.outstanding + h.reported.length = count

variable {config files} {count : ℕ} {s s' : State} {op : Op} {ops next : List Op} {h : History}

theorem Places.perm {ops' : List Op} (hs : Places count s ops h) (hperm : ops.Perm ops') :
  Places count s ops' h
  where
    handled index := by
      rw [← (hperm.flatMap_right _).count_eq]
      exact hs.handled index
    reported index := by
      rw [← (hperm.flatMap_right _).count_eq]
      exact hs.reported index
    outcome index := by
      rw [← (hperm.flatMap_right _).count_eq]
      exact hs.outcome index
    outstanding := hs.outstanding

/-- A step hands a file on: one that waits goes on waiting or is handled. -/
theorem Exec.handled (hexec : Exec config files s op s' next) (h : History)
    (c c' : ThreadPool.Config State Unit Op) (index : ℕ) :
  (h.note c op c').handled.count index + (s'.tasks.flatMap Task.waiting).count index +
    (next.flatMap Op.waiting).count index =
      h.handled.count index + (s.tasks.flatMap Task.waiting).count index + op.waiting.count index
  := by
  cases hexec
  case take front | takeOther front =>
    simp only [front, History.note, Op.waiting, Task.waiting, flatMap_cons, flatMap_nil,
      count_append, count_nil]
    omega
  all_goals
    simp only [History.note, Op.waiting, Task.waiting, flatMap_append, flatMap_cons,
      flatMap_nil, count_append, count_nil]
  all_goals omega

/-- A file that is handled is to be reported until it is. -/
theorem Exec.reported (hexec : Exec config files s op s' next) (h : History)
    (c c' : ThreadPool.Config State Unit Op) (index : ℕ) :
  (h.note c op c').reported.count index + (next.flatMap Op.working).count index +
    h.handled.count index =
      h.reported.count index + op.working.count index + (h.note c op c').handled.count index
  := by
  cases hexec
  all_goals
    simp only [History.note, Op.working, flatMap_cons, flatMap_nil, count_append,
      count_nil]
  all_goals omega

/-- A file that is handled is skipped, or it is uploaded until that returns or throws. -/
theorem Exec.outcome {c : ThreadPool.Config State Unit Op}
    (hexec : Exec config files c.shared op s' next) (h : History)
    (c' : ThreadPool.Config State Unit Op) (index : ℕ) :
  ((h.note c op c').returned.map Prod.fst).count index +
    ((h.note c op c').failures.map Prod.fst).count index + (h.note c op c').skipped.count index +
    (next.flatMap Op.uploading).count index + h.handled.count index =
      (h.returned.map Prod.fst).count index + (h.failures.map Prod.fst).count index +
        h.skipped.count index + op.uploading.count index + (h.note c op c').handled.count index
  := by
  cases hexec
  case skip failed =>
    simp only [History.note, Op.uploading, if_pos failed, flatMap_cons, flatMap_nil,
      count_append, count_nil]
    omega
  case go sound _ =>
    simp only [History.note, Op.uploading, if_neg sound, flatMap_cons, flatMap_nil,
      count_append, count_nil]
    omega
  all_goals
    simp only [History.note, Op.uploading, flatMap_cons, flatMap_nil, count_append,
      count_nil, map_append, map_cons, map_nil]
  all_goals omega

/-- Every file is waiting, to be reported, or reported. -/
theorem Places.length (hs : Places count s ops h) :
  h.reported.length + (ops.flatMap Op.working).length +
    (s.tasks.flatMap Task.waiting).length + (ops.flatMap Op.waiting).length = count
  := by
  have hhandled : (h.handled ++ s.tasks.flatMap Task.waiting ++ ops.flatMap Op.waiting).Perm
      (range count) := by
    apply perm_iff_count.mpr
    intro index
    rw [count_append, count_append, hs.handled index]
  have hreported : (h.reported ++ ops.flatMap Op.working).Perm h.handled := by
    apply perm_iff_count.mpr
    intro index
    rw [count_append, hs.reported index]
  have hlength := hhandled.length_eq
  have hlength' := hreported.length_eq
  simp only [length_append, length_range] at hlength hlength'
  omega

theorem Places.step {rest : List Op} {c : ThreadPool.Config State Unit Op}
    (hs : Places count c.shared (op :: rest) h) (hexec : Exec config files c.shared op s' next)
    (c' : ThreadPool.Config State Unit Op) :
  Places count s' (next ++ rest) (h.note c op c')
  where
    handled index := by
      have hkept := hs.handled index
      have hstep := hexec.handled h c c' index
      rw [List.flatMap_cons, List.count_append] at hkept
      rw [List.flatMap_append, List.count_append]
      omega
    reported index := by
      have hkept := hs.reported index
      have hstep := hexec.reported h c c' index
      rw [List.flatMap_cons, List.count_append] at hkept
      rw [List.flatMap_append, List.count_append]
      omega
    outcome index := by
      have hkept := hs.outcome index
      have hstep := hexec.outcome h c' index
      rw [List.flatMap_cons, List.count_append] at hkept
      rw [List.flatMap_append, List.count_append]
      omega
    outstanding := by
      have hkept := hs.outstanding
      cases hexec
      case finish index =>
        have hlength := hs.length
        rw [List.flatMap_cons, List.length_append, Op.working, List.length_singleton] at hlength
        simp only [History.note, List.length_append, List.length_singleton]
        omega
      all_goals exact hkept

/-- When nothing is outstanding, no operation is about to touch a file. -/
theorem Places.settled (hs : Places count s ops h) (hzero : s.outstanding = 0) :
  s.tasks.flatMap Task.waiting = [] ∧ ops.flatMap Op.waiting = [] ∧ ops.flatMap Op.working = []
  := by
  have hlength := hs.length
  have houtstanding := hs.outstanding
  refine ⟨?_, ?_, ?_⟩
  all_goals
    apply length_eq_zero_iff.mp
    omega

theorem Places.reported_perm (hs : Places count s ops h) (hzero : s.outstanding = 0) :
  h.handled.Perm (List.range count) ∧ h.reported.Perm (List.range count)
  := by
  obtain ⟨htasks, hwaiting, hworking⟩ := hs.settled hzero
  have hhandled : h.handled.Perm (range count) := by
    apply perm_iff_count.mpr
    intro index
    have heq := hs.handled index
    rwa [htasks, hwaiting, count_nil] at heq
  refine ⟨hhandled, List.Perm.trans ?_ hhandled⟩
  apply perm_iff_count.mpr
  intro index
  have heq := hs.reported index
  rwa [hworking, count_nil] at heq

variable {index : ℕ}

/-- A file that waits is not handled yet. -/
theorem Places.not_handled (hs : Places count s ops h) (hindex : index ∈ ops.flatMap Op.waiting) :
  index ∉ h.handled
  := by
  have heq := hs.handled index
  have hone : (range count).count index ≤ 1 :=
    nodup_iff_count_le_one.mp nodup_range index
  have hpos := count_pos_iff.mpr hindex
  apply count_eq_zero.mp
  omega

theorem Places.not_returned (hs : Places count s ops h) (hindex : index ∉ h.handled) :
  index ∉ h.returned.map Prod.fst ∧ index ∉ ops.flatMap Op.uploading
  := by
  have heq := hs.outcome index
  rw [count_eq_zero.mpr hindex] at heq
  constructor <;> apply count_eq_zero.mp <;> omega

/-- A file that an operation uploads has no other upload, and its own has not returned. -/
theorem Places.uploading_once {rest : List Op} (hs : Places count s (op :: rest) h) (index : ℕ)
    (hindex : index ∈ op.uploading) :
  index ∉ h.returned.map Prod.fst ∧ index ∉ rest.flatMap Op.uploading
  := by
  have heq := hs.outcome index
  have hhandled := hs.handled index
  have hone : (range count).count index ≤ 1 :=
    nodup_iff_count_le_one.mp nodup_range index
  have hpos := count_pos_iff.mpr hindex
  rw [flatMap_cons, count_append] at heq
  constructor <;> apply count_eq_zero.mp <;> omega

/-! ### What is noted of a file -/

/-- The slots tell of which files `put_object` has returned, the flag tells whether it has thrown,
and the failure is the first one that was caught. -/
structure Noted (config : Config) (files : List BundleFile) (s : State) (ops : List Op)
    (h : History) : Prop where
  lengths : s.written.length = files.length ∧ s.stored.length = files.length
  stored : ∀ index, s.stored.getD index false = true ↔ index ∈ h.returned.map Prod.fst
  written : ∀ returned ∈ h.returned, s.written[returned.1]? = h.object? config files returned.1
  uploading : ∀ index ∈ ops.flatMap Op.uploading, ∃ file etag, files[index]? = some file ∧
    s.written[index]? = some (uploaded config file etag)
  failed : s.failed = true ↔ h.failures ≠ []
  skipped : h.skipped ≠ [] → s.failed = true
  recording : ∀ index message, .record index message ∈ ops → h.failures.head? = some (index, message)
  failure : ∀ index message, h.failures.head? = some (index, message) →
    .record index message ∈ ops ∨ s.failure = message

theorem Noted.perm {ops' : List Op} (hs : Noted config files s ops h) (hperm : ops.Perm ops') :
  Noted config files s ops' h
  where
    lengths := hs.lengths
    stored := hs.stored
    written := hs.written
    uploading index hindex := hs.uploading index ((hperm.flatMap_right _).mem_iff.mpr hindex)
    failed := hs.failed
    skipped := hs.skipped
    recording index message hmem := hs.recording index message (hperm.mem_iff.mpr hmem)
    failure index message hhead := by
      rw [← hperm.mem_iff]
      exact hs.failure index message hhead

variable {rest : List Op}

/-- An operation that touches neither the slots nor the failure. -/
theorem Noted.keep {h' : History} (hs : Noted config files s (op :: rest) h)
    (hwritten : s'.written = s.written) (hstored : s'.stored = s.stored)
    (hfailed : s'.failed = s.failed) (hfailure : s'.failure = s.failure)
    (hreturned : h'.returned = h.returned) (hfailures : h'.failures = h.failures)
    (hskipped : h'.skipped ≠ [] → s.failed = true)
    (huploading : next.flatMap Op.uploading ⊆ op.uploading)
    (hrecord : ∀ index message, .record index message ∉ op :: next) :
  Noted config files s' (next ++ rest) h'
  where
    lengths := by
      rw [hwritten, hstored]
      exact hs.lengths
    stored := by
      rw [hstored, hreturned]
      exact hs.stored
    written := by
      unfold History.object?
      rw [hwritten, hreturned]
      exact hs.written
    uploading index hindex := by
      rw [hwritten]
      apply hs.uploading index
      rw [List.flatMap_append, List.mem_append] at hindex
      exact List.mem_append.mpr (hindex.imp_left fun hmem => huploading hmem)
    failed := by
      rw [hfailed, hfailures]
      exact hs.failed
    skipped hne := by
      rw [hfailed]
      exact hskipped hne
    recording index message hmem := by
      rw [hfailures]
      apply hs.recording
      rcases List.mem_append.mp hmem with hmem | hmem
      · exact absurd (List.mem_cons_of_mem _ hmem) (hrecord index message)
      · exact List.mem_cons_of_mem _ hmem
    failure index message hhead := by
      rw [hfailures] at hhead
      rw [hfailure]
      refine (hs.failure index message hhead).imp_left fun hmem => ?_
      rcases List.mem_cons.mp hmem with heq | hmem
      · exact absurd (heq ▸ List.mem_cons_self) (hrecord index message)
      · exact List.mem_append_right _ hmem

theorem History.object?_append {index index' : ℕ} {etag : List UInt8} (hne : index ≠ index') :
  History.object? config files { h with returned := h.returned ++ [(index', etag)] } index =
    h.object? config files index
  := by
  have hlookup : (h.returned ++ [(index', etag)]).lookup index = h.returned.lookup index := by
    rw [lookup_append]
    have hother : [(index', etag)].lookup index = none := by
      simp [hne]
    rw [hother, Option.or_none]
  rw [History.object?, hlookup, History.object?]

theorem History.object?_new {etag : List UInt8} {file : BundleFile}
    (hindex : index ∉ h.returned.map Prod.fst) (hfile : files[index]? = some file) :
  History.object? config files { h with returned := h.returned ++ [(index, etag)] } index =
    some (uploaded config file etag)
  := by
  have hnone : h.returned.lookup index = none := by
    apply lookup_eq_none_iff.mpr
    intro pair hpair
    simp only [bne_iff_ne]
    rintro rfl
    exact hindex (mem_map_of_mem hpair)
  have hlookup : (h.returned ++ [(index, etag)]).lookup index = some etag := by
    rw [lookup_append, hnone, Option.none_or]
    simp
  rw [History.object?, hlookup, hfile]
  rfl

variable {c c' : ThreadPool.Config State Unit Op}

/-- An upload begins: what is noted before it touches no other file. -/
theorem Noted.go {file : BundleFile} (hs : Noted config files c.shared (.check index :: rest) h)
    (hplaces : Places files.length c.shared (.check index :: rest) h) (sound : ¬ c.shared.failed)
    (hfile : files[index]? = some file) :
  Noted config files
    { c.shared with written := c.shared.written.set index (uploaded config file []) }
    ([.put index] ++ rest) (h.note c (.check index) c')
  := by
  have hwaiting : index ∈ (Op.check index :: rest).flatMap Op.waiting := by simp [Op.waiting]
  obtain ⟨hreturned, huploading⟩ := hplaces.not_returned (hplaces.not_handled hwaiting)
  have hlt : index < c.shared.written.length := by
    rw [hs.lengths.1]
    exact (List.getElem?_eq_some_iff.mp hfile).1
  constructor
  case lengths => simpa using hs.lengths
  case stored => exact hs.stored
  case written =>
    intro returned hmem
    have hne : index ≠ returned.1 := by
      rintro rfl
      exact hreturned (List.mem_map_of_mem hmem)
    rw [List.getElem?_set_ne hne]
    exact hs.written returned hmem
  case uploading =>
    intro index' hindex'
    rcases List.mem_cons.mp hindex' with rfl | hindex'
    · exact ⟨file, [], hfile, by rw [List.getElem?_set_self hlt]⟩
    · have hne : index ≠ index' := by
        rintro rfl
        exact huploading (List.mem_append_right _ hindex')
      rw [List.getElem?_set_ne hne]
      exact hs.uploading index' (List.mem_append_right _ hindex')
  case failed => exact hs.failed
  case skipped =>
    simp only [History.note, if_neg sound]
    exact hs.skipped
  case recording =>
    intro index' message hmem
    apply hs.recording index' message
    simpa using hmem
  case failure =>
    intro index' message hhead
    simpa using hs.failure index' message hhead

/-- An upload returns. -/
theorem Noted.store {index : ℕ} {etag : List UInt8} {object : UploadedObject}
    {c c' : ThreadPool.Config State Unit Op}
    (hs : Noted config files c.shared (.store index etag :: rest) h)
    (hplaces : Places files.length c.shared (.store index etag :: rest) h)
    (hobject : c.shared.written[index]? = some object) :
  Noted config files
    { c.shared with
      written := c.shared.written.set index { object with etag }
      stored := c.shared.stored.set index true }
    ([.finish index] ++ rest) (h.note c (.store index etag) c')
  := by
  obtain ⟨hreturned, huploading⟩ := hplaces.uploading_once index (by simp [Op.uploading])
  obtain ⟨file, etag', hfile, hwritten⟩ := hs.uploading index (by simp [Op.uploading])
  obtain rfl : uploaded config file etag' = object :=
    Option.some.inj (hwritten.symm.trans hobject)
  have hlt : index < c.shared.written.length := (List.getElem?_eq_some_iff.mp hobject).1
  have hlt' : index < c.shared.stored.length := by
    rw [hs.lengths.2, ← hs.lengths.1]
    exact hlt
  constructor
  case lengths => simpa using hs.lengths
  case stored =>
    intro index'
    simp only [History.note, List.map_append, List.map_singleton, List.mem_append,
      List.mem_singleton, List.getD_eq_getElem?_getD]
    by_cases hsame : index' = index
    · subst hsame
      simp [List.getElem?_set_self hlt']
    · rw [List.getElem?_set_ne (Ne.symm hsame), ← List.getD_eq_getElem?_getD, hs.stored index']
      simp [hsame]
  case written =>
    intro returned hmem
    rcases List.mem_append.mp hmem with hold | hnew
    · have hne : index ≠ returned.1 := by
        rintro rfl
        exact hreturned (List.mem_map_of_mem hold)
      rw [List.getElem?_set_ne hne, hs.written returned hold]
      exact (History.object?_append hne.symm).symm
    · obtain rfl := List.mem_singleton.mp hnew
      rw [List.getElem?_set_self hlt]
      exact (History.object?_new hreturned hfile).symm
  case uploading =>
    intro index' hindex'
    have hmem : index' ∈ rest.flatMap Op.uploading := by simpa [Op.uploading] using hindex'
    have hne : index ≠ index' := by
      rintro rfl
      exact huploading hmem
    rw [List.getElem?_set_ne hne]
    exact hs.uploading index' (List.mem_append_right _ hmem)
  case failed => exact hs.failed
  case skipped => exact hs.skipped
  case recording =>
    intro index' message hmem
    apply hs.recording index' message
    simpa using hmem
  case failure =>
    intro index' message hhead
    simpa using hs.failure index' message hhead

/-- An upload throws, as none has before. -/
theorem Noted.failFirst {message : String}
    (hs : Noted config files c.shared (.fail index message :: rest) h)
    (first : ¬ c.shared.failed) :
  Noted config files { c.shared with failed := true } ([.record index message] ++ rest)
    (h.note c (.fail index message) c')
  := by
  have hnone : h.failures = [] := by
    by_contra hne
    exact first (hs.failed.mpr hne)
  have hfailures : (h.note c (.fail index message) c').failures = [(index, message)] := by
    simp [History.note, hnone]
  constructor
  case lengths => exact hs.lengths
  case stored => exact hs.stored
  case written => exact hs.written
  case uploading =>
    intro index' hindex'
    apply hs.uploading index'
    exact mem_append_right _ (by simpa [Op.uploading] using hindex')
  case failed => simp [hfailures]
  case skipped => exact fun _ => rfl
  case recording =>
    intro index' message' hmem
    rw [hfailures]
    rcases mem_append.mp hmem with hmem | hmem
    · cases mem_singleton.mp hmem
      rfl
    · have hhead := hs.recording index' message' (mem_cons_of_mem _ hmem)
      rw [hnone] at hhead
      cases hhead
  case failure =>
    intro index' message' hhead
    rw [hfailures] at hhead
    cases hhead
    exact Or.inl mem_cons_self

/-- An upload throws, as another one has before. -/
theorem Noted.failAgain {message : String}
    (hs : Noted config files c.shared (.fail index message :: rest) h) (again : c.shared.failed) :
  Noted config files c.shared ([.finish index] ++ rest) (h.note c (.fail index message) c')
  := by
  have hhead : (h.note c (.fail index message) c').failures.head? = h.failures.head? := by
    obtain ⟨first, others, hfailures⟩ := exists_cons_of_ne_nil (hs.failed.mp again)
    simp [History.note, hfailures]
  constructor
  case lengths => exact hs.lengths
  case stored => exact hs.stored
  case written => exact hs.written
  case uploading =>
    intro index' hindex'
    apply hs.uploading index'
    exact mem_append_right _ (by simpa [Op.uploading] using hindex')
  case failed => simp [History.note, again]
  case skipped => exact hs.skipped
  case recording =>
    intro index' message' hmem
    rw [hhead]
    apply hs.recording index' message'
    simpa using hmem
  case failure =>
    intro index' message' hfirst
    rw [hhead] at hfirst
    simpa using hs.failure index' message' hfirst

theorem Noted.record {index : ℕ} {message : String} {c c' : ThreadPool.Config State Unit Op}
    (hs : Noted config files c.shared (.record index message :: rest) h) :
  Noted config files { c.shared with failure := message } ([.finish index] ++ rest)
    (h.note c (.record index message) c')
  := by
  have hhead := hs.recording index message mem_cons_self
  constructor
  case lengths => exact hs.lengths
  case stored => exact hs.stored
  case written => exact hs.written
  case uploading =>
    intro index' hindex'
    apply hs.uploading index'
    exact mem_append_right _ (by simpa [Op.uploading] using hindex')
  case failed => exact hs.failed
  case skipped => exact hs.skipped
  case recording =>
    intro index' message' hmem
    apply hs.recording index' message'
    exact mem_cons_of_mem _ (by simpa using hmem)
  case failure =>
    intro index' message' hfirst
    cases hhead.symm.trans hfirst
    exact Or.inr rfl

theorem Noted.step {c : ThreadPool.Config State Unit Op}
    (hs : Noted config files c.shared (op :: rest) h)
    (hplaces : Places files.length c.shared (op :: rest) h)
    (hexec : Exec config files c.shared op s' next) (c' : ThreadPool.Config State Unit Op) :
  Noted config files s' (next ++ rest) (h.note c op c')
  := by
  cases hexec
  case go file sound hfile => exact hs.go hplaces sound hfile
  case store object hobject => exact hs.store hplaces hobject
  case failFirst first => exact hs.failFirst first
  case failAgain again => exact hs.failAgain again
  case record => exact hs.record
  case skip failed =>
    apply hs.keep <;> first | rfl | exact fun _ => failed | simp [Op.uploading]
  all_goals
    apply hs.keep <;> first | rfl | exact hs.skipped | simp [Op.uploading]

/-! ### What the call answers -/

/-- The answer of the call: the objects of all files, or the failure that was caught first and the
objects of the files whose uploads have returned. -/
def Answers (config : Config) (files : List BundleFile) (h : History) :
    Except (String × List UploadedObject) (List UploadedObject) → Prop
  | .ok written =>
    h.failures = [] ∧ written = h.objects config files ∧
      (h.returned.map Prod.fst).Perm (List.range files.length)
  | .error (message, partialList) =>
    (∃ index, h.failures.head? = some (index, message)) ∧ partialList = h.objects config files

/-- The call goes on to its answer, and gives it, when nothing is outstanding. -/
structure Answered (config : Config) (files : List BundleFile) (s : State) (ops : List Op)
    (h : History) : Prop where
  settled : .answer ∈ ops → s.outstanding = 0
  answers : ∀ answer, s.answer = some answer → s.outstanding = 0 ∧ Answers config files h answer

theorem Answered.perm {ops' : List Op} (hs : Answered config files s ops h)
    (hperm : ops.Perm ops') :
  Answered config files s ops' h
  where
    settled hmem := hs.settled (hperm.mem_iff.mpr hmem)
    answers := hs.answers

/-- What is noted of returned uploads is the partial list. -/
theorem Noted.partialList (hs : Noted config files s ops h) :
  s.partialList = h.objects config files
  := by
  rw [State.partialList, History.objects, hs.lengths.1]
  apply filterMap_congr
  intro index _
  by_cases hstored : s.stored.getD index false = true
  · obtain ⟨returned, hmem, rfl⟩ := mem_map.mp ((hs.stored index).mp hstored)
    rw [if_pos hstored, hs.written returned hmem]
  · have hnone : h.returned.lookup index = none := by
      apply lookup_eq_none_iff.mpr
      intro pair hpair
      simp only [bne_iff_ne]
      rintro rfl
      exact hstored ((hs.stored _).mpr (mem_map_of_mem hpair))
    rw [if_neg hstored, History.object?, hnone]
    simp

/-- An operation that uploads a file is to report it. -/
theorem Op.uploading_subset (op : Op) :
  op.uploading ⊆ op.working
  := by
  cases op <;> simp [uploading, working]

/-- With nothing outstanding and no failure, all files are stored. -/
theorem Noted.written_eq (hs : Noted config files s ops h)
    (hplaces : Places files.length s ops h) (hzero : s.outstanding = 0) (hsound : ¬ s.failed) :
  Answers config files h (.ok s.written)
  := by
  have hfailures : h.failures = [] := by
    by_contra hne
    exact hsound (hs.failed.mpr hne)
  have hskipped : h.skipped = [] := by
    by_contra hne
    exact hsound (hs.skipped hne)
  have huploading : ops.flatMap Op.uploading = [] := by
    apply flatMap_eq_nil_iff.mpr
    intro op hop
    apply eq_nil_iff_forall_not_mem.mpr
    intro index hindex
    have hworking := mem_flatMap.mpr ⟨op, hop, op.uploading_subset hindex⟩
    rw [(hplaces.settled hzero).2.2] at hworking
    cases hworking
  have hperm : (h.returned.map Prod.fst).Perm (range files.length) := by
    refine List.Perm.trans ?_ (hplaces.reported_perm hzero).1
    apply perm_iff_count.mpr
    intro index
    have heq := hplaces.outcome index
    rw [hfailures, hskipped, huploading] at heq
    simpa using heq
  refine ⟨hfailures, ?_, hperm⟩
  rw [← hs.partialList, State.partialList]
  conv_lhs => rw [← Lists.filterMap_positions_range s.written]
  apply filterMap_congr
  intro index hindex
  rw [hs.lengths.1, ← hperm.mem_iff] at hindex
  rw [if_pos ((hs.stored index).mpr hindex)]

/-- A failure that was caught is the message that is thrown. -/
theorem Noted.failure_eq (hs : Noted config files s ops h)
    (hplaces : Places files.length s ops h) (hzero : s.outstanding = 0) (hfailed : s.failed) :
  Answers config files h (.error (s.failure, s.partialList))
  := by
  obtain ⟨⟨index, message⟩, others, hfailures⟩ := exists_cons_of_ne_nil (hs.failed.mp hfailed)
  have hhead : h.failures.head? = some (index, message) := by
    rw [hfailures]
    rfl
  refine ⟨⟨index, ?_⟩, hs.partialList⟩
  rcases hs.failure index message hhead with hrecord | hfailure
  · have hworking : index ∈ ops.flatMap Op.working :=
      mem_flatMap.mpr ⟨_, hrecord, mem_singleton_self index⟩
    rw [(hplaces.settled hzero).2.2] at hworking
    cases hworking
  · rw [hfailure]
    exact hhead

theorem Answered.keep (hs : Answered config files s (op :: rest) h)
    (houtstanding : s'.outstanding = s.outstanding) (hanswer : s'.answer = s.answer)
    (hnext : .answer ∉ next) :
  Answered config files s' (next ++ rest) h
  where
    settled hmem := by
      rw [houtstanding]
      apply hs.settled
      exact List.mem_cons_of_mem _ ((List.mem_append.mp hmem).resolve_left hnext)
    answers := by
      rw [houtstanding, hanswer]
      exact hs.answers

/-- An operation on a file is not run any more when the call answers. -/
theorem Answered.busy {h' : History} (hs : Answered config files s (op :: rest) h)
    (hplaces : Places files.length s (op :: rest) h) (hbusy : op.waiting ≠ [] ∨ op.working ≠ [])
    (hanswer : s'.answer = s.answer) (hnext : .answer ∉ next) :
  Answered config files s' (next ++ rest) h'
  := by
  have hne : s.outstanding ≠ 0 := by
    intro hzero
    obtain ⟨_, hwaiting, hworking⟩ := hplaces.settled hzero
    rw [flatMap_cons, append_eq_nil_iff] at hwaiting hworking
    exact hbusy.elim (fun h => h hwaiting.1) fun h => h hworking.1
  constructor
  case settled =>
    intro hmem
    apply absurd (hs.settled _) hne
    exact mem_cons_of_mem _ ((mem_append.mp hmem).resolve_left hnext)
  case answers =>
    intro answer hsome
    rw [hanswer] at hsome
    exact absurd (hs.answers answer hsome).1 hne

theorem Answered.step {c : ThreadPool.Config State Unit Op}
    (hs : Answered config files c.shared (op :: rest) h)
    (hplaces : Places files.length c.shared (op :: rest) h)
    (hnoted : Noted config files c.shared (op :: rest) h)
    (hexec : Exec config files c.shared op s' next) (c' : ThreadPool.Config State Unit Op) :
  Answered config files s' (next ++ rest) (h.note c op c')
  := by
  cases hexec
  case wait done => exact ⟨fun _ => done, hs.answers⟩
  case throwFailure failed =>
    have hzero := hs.settled mem_cons_self
    refine ⟨fun _ => hzero, ?_⟩
    rintro _ ⟨⟩
    exact ⟨hzero, hnoted.failure_eq hplaces hzero failed⟩
  case returnWritten sound =>
    have hzero := hs.settled mem_cons_self
    refine ⟨fun _ => hzero, ?_⟩
    rintro _ ⟨⟩
    exact ⟨hzero, hnoted.written_eq hplaces hzero sound⟩
  case skip | go | store | failFirst | failAgain | finish =>
    apply hs.busy hplaces <;> first | rfl | simp [Op.waiting, Op.working]
  all_goals
    apply hs.keep <;> first | rfl | simp

/-! ### Runs -/

/-- What holds of every run. -/
structure Invariant (config : Config) (files : List BundleFile) (s : State) (ops : List Op)
    (h : History) : Prop where
  places : Places files.length s ops h
  noted : Noted config files s ops h
  answered : Answered config files s ops h

theorem ops_start (workers : ℕ) :
  (start files workers).ops =
    (if files = [] then [.answer] else (List.range files.length).map .submit ++ [.wait]) ++
      .others :: List.replicate workers .take
  := by
  have htakes : (replicate workers (Thread.mk () [Op.take])).flatMap Thread.code =
      replicate workers .take := by
    rw [flatMap_replicate]
    simp
  rw [Config.ops, start, flatMap_cons, flatMap_cons, htakes]
  rfl

/-- At the start every file waits for being submitted, and no operation works on one. -/
theorem flatMap_ops_start (workers : ℕ) :
  (start files workers).ops.flatMap Op.waiting = List.range files.length ∧
    (start files workers).ops.flatMap Op.working = [] ∧
    (start files workers).ops.flatMap Op.uploading = []
  := by
  have hsubmits : ∀ count, ((range count).map Op.submit).flatMap Op.waiting =
      range count := by
    intro count
    rw [flatMap_map]
    exact flatMap_singleton' _
  rw [ops_start]
  split
  case isTrue hempty =>
    subst hempty
    simp [Op.waiting, Op.working, Op.uploading, flatMap_replicate]
  case isFalse =>
    simp [Op.waiting, Op.working, Op.uploading, flatMap_replicate, hsubmits]

theorem invariant_start (workers : ℕ) :
  Invariant config files (start files workers).shared (start files workers).ops {}
  := by
  obtain ⟨hwaiting, hworking, huploading⟩ := flatMap_ops_start workers
  constructor
  case places =>
    constructor
    case handled =>
      intro index
      rw [hwaiting]
      simp [start, State.start]
    case reported =>
      intro index
      rw [hworking]
      rfl
    case outcome =>
      intro index
      rw [huploading]
      rfl
    case outstanding => rfl
  case noted =>
    constructor
    case uploading =>
      rw [huploading]
      simp
    case recording =>
      intro index message hmem
      rw [ops_start] at hmem
      split at hmem <;> simp at hmem
    case stored =>
      intro index
      simp only [start, State.start, getD_eq_getElem?_getD, getElem?_replicate]
      split <;> simp
    all_goals simp [start, State.start]
  case answered =>
    constructor
    case settled =>
      intro hmem
      rw [ops_start] at hmem
      split at hmem
      case isTrue hempty => simp [start, State.start, hempty]
      case isFalse => simp at hmem
    case answers => simp [start, State.start]

theorem invariant_of_observes {workers : ℕ} {c : ThreadPool.Config State Unit Op} {h : History}
    (run : Observes (fun c => Exec config files c.shared) History.note (start files workers) {} c h) :
  Invariant config files c.shared c.ops h
  := by
  apply run.invariant (invariant_start workers)
  intro c c' op h _ hc hstep
  obtain ⟨next, rest, hexec, hops, hops'⟩ := hstep.ops_perm
  have hplaces := hc.places.perm hops
  have hnoted := hc.noted.perm hops
  constructor
  case places => exact (hplaces.step hexec c').perm hops'.symm
  case noted => exact (hnoted.step hplaces hexec c').perm hops'.symm
  case answered => exact ((hc.answered.perm hops).step hplaces hnoted hexec c').perm hops'.symm

/-- Wherever the threads stand, no file is handled twice, and when the call has returned or thrown,
every file has been handled and reported, and no operation on a file is left.  It has returned the
objects of all files in their order, or thrown the failure that was caught first and the objects of
the files whose uploads have returned. -/
theorem uploadBundle_reports {workers : ℕ} {c : ThreadPool.Config State Unit Op} {h : History}
    (run : Observes (fun c => Exec config files c.shared) History.note (start files workers) {} c h) :
  (∀ index, h.handled.count index ≤ if index < files.length then 1 else 0) ∧
  ∀ answer, c.shared.answer = some answer →
    h.handled.Perm (List.range files.length) ∧ h.reported.Perm (List.range files.length) ∧
    c.shared.tasks.flatMap Task.waiting = [] ∧
    (∀ op ∈ c.ops, op.waiting = [] ∧ op.working = []) ∧
    Answers config files h answer
  := by
  have hc := invariant_of_observes run
  constructor
  · intro index
    have heq := hc.places.handled index
    have hrange : (List.range files.length).count index = if index < files.length then 1 else 0 := by
      split
      case isTrue hlt => exact List.count_eq_one_of_mem List.nodup_range (List.mem_range.mpr hlt)
      case isFalse hge => exact List.count_eq_zero.mpr (by simpa using hge)
    omega
  · intro answer hanswer
    obtain ⟨hzero, hanswers⟩ := hc.answered.answers answer hanswer
    obtain ⟨hhandled, hreported⟩ := hc.places.reported_perm hzero
    obtain ⟨htasks, hwaiting, hworking⟩ := hc.places.settled hzero
    refine ⟨hhandled, hreported, htasks, fun op hop => ?_, hanswers⟩
    exact ⟨List.flatMap_eq_nil_iff.mp hwaiting op hop, List.flatMap_eq_nil_iff.mp hworking op hop⟩

def smallConfig : Config where
  keyPrefix := [0x70, 0x2f]
  queueCapacity := 1

/-- A bundle of two files, the second of which finds the queue full. -/
def smallFiles : List BundleFile :=
  [⟨[0x61], [1, 2, 3]⟩, ⟨[0x62], []⟩]

/-- The worker uploads the first file, and the call has the second upload fail. -/
theorem uploadBundle_reports_small :
  ∃ c h, Observes (fun c => Exec smallConfig smallFiles c.shared) History.note
      (start smallFiles 1) {} c h ∧
    c.shared.answer = some (.error ("refused", [⟨[0x70, 0x2f, 0x61], [0x65], 3⟩])) ∧
    h.reported.Perm (List.range 2)
  := by
  have run : Observes (fun c => Exec smallConfig smallFiles c.shared) History.note
      (start smallFiles 1) {} _ _ := .refl
  replace run := run.andThen 0 (.submit ⟨by decide, by decide⟩)
  replace run := run.andThen 0 (.refuse (.inr (by decide)))
  replace run := run.andThen 2 (.take rfl)
  replace run := run.andThen 2 (.go ⟨[0x61], [1, 2, 3]⟩ (by decide) rfl)
  replace run := run.andThen 0 (.go ⟨[0x62], []⟩ (by decide) rfl)
  replace run := run.andThen 0 (.thrown "refused")
  replace run := run.andThen 0 (.failFirst (by decide))
  replace run := run.andThen 2 (.returned [0x65])
  replace run := run.andThen 2 (.store _ rfl)
  replace run := run.andThen 0 .record
  replace run := run.andThen 0 .finish
  replace run := run.andThen 2 .finish
  replace run := run.andThen 0 (.wait rfl)
  replace run := run.andThen 0 (.throwFailure rfl)
  refine ⟨_, _, run, rfl, ?_⟩
  exact ((uploadBundle_reports run).2 _ rfl).2.1

end GRParse.UploadBundle
