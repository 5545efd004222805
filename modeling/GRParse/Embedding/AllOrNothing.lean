import GRParse.Embedding.Runs

/-!
# All or nothing

What a call of `embed` leaves, for a server that was set up and options that it accepts.
-/

namespace GRParse.Embedding

open ChunkEmbedder List

variable {ρ : Type}

/-! ### Servers -/

/-- A server that was set up has limits, and an engine for the one model. -/
structure ChunkEmbedder.Ready (embedder : ChunkEmbedder) (engine : EmbeddingEngine) : Prop where
  engine_eq : embedder.engine = some engine
  identity_eq : embedder.identity = engine.identity
  dimensions : embedder.identity.dimensions = 384
  batchSize_pos : 0 < embedder.batchSize
  batchSize_lt : embedder.batchSize < 2 ^ 32

variable {embedder : ChunkEmbedder} {engine : EmbeddingEngine}

theorem ready_of_create {config : EmbeddingConfig}
    (h : create (some engine) config = .ok embedder) :
  embedder.Ready engine
  := by
  unfold create at h
  split at h
  case isTrue => cases h
  case isFalse hlimits =>
    dsimp only at h
    split at h
    case isTrue => cases h
    case isFalse hidentity =>
      split at h
      case isTrue => cases h
      case isFalse =>
        split at h
        case isTrue => cases h
        case isFalse hbatch =>
          obtain rfl := Except.ok.inj h
          simp only [not_or, not_not] at hidentity hlimits
          constructor
          case engine_eq => rfl
          case identity_eq => rfl
          case dimensions => exact hidentity.2.2.1
          case batchSize_pos => exact Nat.pos_of_ne_zero hbatch
          case batchSize_lt => exact (min_le_left _ _).trans_lt (not_le.mp hlimits.2.1)

theorem engine_of_create {engine : Option EmbeddingEngine} {config : EmbeddingConfig}
    (h : create engine config = .ok embedder) :
  embedder.engine = engine
  := by
  cases engine with
  | some engine => exact (ready_of_create h).engine_eq
  | none =>
    unfold create at h
    split at h
    case isTrue => cases h
    case isFalse =>
      dsimp only at h
      split at h
      case isTrue => cases h
      case isFalse =>
        obtain rfl := Except.ok.inj h
        rfl

variable {options : EmbeddingOptions}

/-- Options that are accepted and turn embedding on. -/
theorem batchSize_of_validate (henabled : options.enabled) (h : (embedder.validate options).ok) :
  embedder.engine.isSome ∧
    ∀ size ∈ options.batchSize, size ≠ 0 ∧ size ≤ embedder.batchSize
  := by
  have hfail : ∀ {code : StatusCode} {message : String}, code ≠ .ok →
      (⟨code, message⟩ : Status).ok = false := fun hcode => decide_eq_false hcode
  unfold validate at h
  rw [henabled] at h
  simp only [Bool.not_true, Bool.false_eq_true, if_false] at h
  split at h
  case isTrue => simp [hfail] at h
  case isFalse =>
    split at h
    case isTrue => simp [hfail] at h
    case isFalse =>
      split at h
      case isTrue => simp [hfail] at h
      case isFalse hzero =>
        split at h
        case isTrue => simp [hfail] at h
        case isFalse hengine =>
          split at h
          case isTrue => simp [hfail] at h
          case isFalse hmore =>
            refine ⟨by simpa [Option.isSome_iff_ne_none] using hengine, ?_⟩
            intro size hsize
            rw [Option.mem_def.mp hsize] at hzero hmore
            exact ⟨by simpa using hzero, by simpa using hmore⟩

/-- The calls of a server are valid. -/
theorem callOf_valid (hready : embedder.Ready engine) (henabled : options.enabled)
    (h : (embedder.validate options).ok) (cancelled : ℕ → Bool) :
  (embedder.callOf engine options cancelled).Valid
  := by
  obtain ⟨-, hsize⟩ := batchSize_of_validate henabled h
  have hlimit : 0 < options.batchSize.getD embedder.batchSize ∧
      options.batchSize.getD embedder.batchSize ≤ embedder.batchSize := by
    cases hoption : options.batchSize with
    | none => exact ⟨hready.batchSize_pos, le_rfl⟩
    | some size =>
      obtain ⟨hne, hle⟩ := hsize size hoption
      exact ⟨Nat.pos_of_ne_zero hne, hle⟩
  exact ⟨hlimit.1, hlimit.2.trans_lt hready.batchSize_lt, hready.dimensions⟩

/-! ### Calls -/

namespace ChunkEmbedder

/-- A chunk with the embedding of its text by a vector. -/
def Call.attachTo (call : Call) (chunk : Chunk ρ) (values : List Float32) : Chunk ρ :=
  { chunk with embedding := some (call.embeddingOf (call.textOf chunk, values)) }

/-- Every chunk has an embedding of the vector that the engine returned for its text, in batches
that cut the chunks into pieces. -/
structure Call.Attached (call : Call) (chunks : List (Chunk ρ)) (result : Embedded ρ)
    (parts : List (List (Chunk ρ))) (answers : List (List (List Float32))) : Prop where
  flatten : parts.flatten = chunks
  batches : result.batches = parts.map (·.map call.textOf)
  isBatch : ∀ part ∈ parts, call.IsBatch part
  answered : call.Answers 0 result.batches answers
  length : answers.flatten.length = chunks.length
  chunks : result.chunks = chunks.zipWith call.attachTo answers.flatten

end ChunkEmbedder

/-- Attaching the embeddings of texts and vectors, chunk by chunk. -/
theorem attach_zip (call : Call) : ∀ (chunks : List (Chunk ρ)) (values : List (List Float32)),
  attach chunks (((chunks.map call.textOf).zip values).map call.embeddingOf)
    = chunks.zipWith call.attachTo values
  | [], _ => rfl
  | _ :: _, [] => rfl
  | _ :: chunks, _ :: values => congrArg (_ :: ·) (attach_zip call chunks values)

theorem embedAll_safe {call : Call} (hcall : call.Valid) (chunks : List (Chunk ρ)) :
  Safe (embedAll call chunks) fun result =>
    result.status.ok ∧ ∃ parts answers, call.Attached chunks result parts answers
  := by
  unfold embedAll
  split
  case isTrue => exact safe_refuse (by decide) _
  case isFalse =>
    apply (embedFrom_safe hcall chunks.length 0 chunks (Nat.zero_le _) le_rfl).bind
    rintro ⟨pending, batches⟩ _ ⟨parts, answers, hcuts⟩
    dsimp only
    split
    case isTrue => exact safe_refuse (by decide) _
    case isFalse =>
      split
      case isTrue => exact safe_refuse (by decide) _
      case isFalse =>
        refine ⟨rfl, parts, answers, hcuts.flatten, hcuts.batches, hcuts.isBatch,
          hcuts.answered, hcuts.length, ?_⟩
        have hpending : pending
            = ((chunks.map call.textOf).zip answers.flatten).map call.embeddingOf := hcuts.embeddings
        rw [hpending]
        apply attach_zip

/-- What an engine that embeds each text for itself returned. -/
theorem ChunkEmbedder.Call.Answers.of_isPure {call : Call} {vector : Text → List Float32}
    (hpure : call.IsPure vector) : ∀ {turn : ℕ} {batches : List (List Text)}
    {answers : List (List (List Float32))}, call.Answers turn batches answers →
  answers = batches.map (·.map vector)
  | _, [], [], _ => rfl
  | turn, texts :: batches, vectors :: answers, h => by
    obtain ⟨⟨status, -, hanswer⟩, -, hrest⟩ := h
    obtain ⟨status', -, hanswer'⟩ := hpure turn texts
    obtain ⟨-, -, rfl⟩ := Outcome.returned.inj (hanswer.symm.trans hanswer')
    rw [hrest.of_isPure hpure, List.map_cons]
  | _, [], _ :: _, h => h.elim
  | _, _ :: _, [], h => h.elim

variable {vector : Text → List Float32} {chunks : List (Chunk ρ)}

/-- The embeddings of a run with such an engine. -/
theorem ChunkEmbedder.Call.Cuts.embeddings_of_isPure {call : Call} (hpure : call.IsPure vector)
    {turn : ℕ} {result : List ChunkEmbedding × List (List Text)} {parts : List (List (Chunk ρ))}
    {answers : List (List (List Float32))} (h : call.Cuts turn chunks result parts answers) :
  result.1 = chunks.map (call.embedChunk vector)
  := by
  have hvectors : answers.flatten = (chunks.map call.textOf).map vector := by
    rw [h.answered.of_isPure hpure, h.batches, ← h.flatten, map_map, map_flatten,
      map_flatten, map_map]
  rw [h.embeddings, hvectors, map_map, zip_map', map_map]
  rfl

/-- A call with an engine that embeds each text for itself, and that is not cancelled, succeeds
when the chunks can be embedded. -/
theorem embedAll_isOk_iff {call : Call} (hcall : call.Valid) (hpure : call.IsPure vector)
    (hcancelled : ∀ n, call.cancelled n = false) (chunks : List (Chunk ρ)) :
  (∃ result, embedAll call chunks = .ok result) ↔ call.Embeddable vector 0 chunks
  := by
  have hsafe := embedFrom_safe hcall chunks.length 0 chunks (Nat.zero_le _) le_rfl
  rw [← embedFrom_eq_ok_iff hcall hpure hcancelled chunks.length 0 chunks (Nat.zero_le _) le_rfl,
    embedAll, hcancelled, if_neg Bool.false_ne_true]
  cases hrun : embedFrom call chunks.length 0 0 chunks with
  | error stop =>
    constructor
    · rintro ⟨_, h⟩
      cases h
    · rintro ⟨_, h⟩
      cases h
  | ok result =>
    obtain ⟨pending, batches⟩ := result
    rw [hrun] at hsafe
    obtain ⟨parts, answers, hcuts⟩ := hsafe
    have hpending : pending = chunks.map (call.embedChunk vector) :=
      hcuts.embeddings_of_isPure hpure
    constructor
    · intro _
      exact ⟨batches, by rw [hpending]⟩
    · intro _
      rw [Traverse.ok_bind]
      simp only [hcancelled, Bool.false_eq_true, if_false]
      exact ⟨_, rfl⟩

/-- What such a call attaches. -/
theorem embedAll_chunks {call : Call} (hcall : call.Valid) (hpure : call.IsPure vector)
    {result : Embedded ρ} (h : embedAll call chunks = .ok result) :
  result.status.ok ∧ result.chunks = attach chunks (chunks.map (call.embedChunk vector))
  := by
  have hsafe := embedAll_safe hcall chunks
  rw [h] at hsafe
  obtain ⟨hok, parts, answers, hattached⟩ := hsafe
  refine ⟨hok, ?_⟩
  have hvectors : answers.flatten = (chunks.map call.textOf).map vector := by
    rw [hattached.answered.of_isPure hpure, hattached.batches, ← hattached.flatten, map_map,
      map_flatten, map_flatten, map_map]
  rw [hattached.chunks, hvectors, ← attach_zip, map_map, zip_map', map_map]
  rfl

/-! ### What a call leaves -/

/-- An accepted call that is turned off does nothing. -/
theorem embed_disabled (h : options.enabled = false) (cancelled : ℕ → Bool)
    (chunks : List (Chunk ρ)) :
  embed embedder options cancelled chunks = some { status := embedder.validate options, chunks }
  := by
  rw [embed, if_pos (.inr (by simp [h]))]

theorem embed_enabled (hready : embedder.Ready engine) (henabled : options.enabled)
    (h : (embedder.validate options).ok) (cancelled : ℕ → Bool) (chunks : List (Chunk ρ)) :
  embed embedder options cancelled chunks
    = match embedAll (embedder.callOf engine options cancelled) chunks with
      | .ok embedded => some embedded
      | .error (.returned status) => some { status, chunks }
      | .error .wrapped | .error .endless => none
  := by
  rw [embed, if_neg (by simp [h, henabled]), hready.engine_eq] <;> rfl

/-- A call that is accepted and turned on ends with a result, and attaches to every chunk or to
none. -/
theorem embed_result (hready : embedder.Ready engine) (henabled : options.enabled)
    (h : (embedder.validate options).ok) (cancelled : ℕ → Bool) (chunks : List (Chunk ρ)) :
  ∃ result, embed embedder options cancelled chunks = some result ∧
    (result.status.ok = false → result.chunks = chunks) ∧
    (result.status.ok → ∃ parts answers,
      (embedder.callOf engine options cancelled).Attached chunks result parts answers)
  := by
  have hsafe := embedAll_safe (callOf_valid hready henabled h cancelled) chunks
  rw [embed_enabled hready henabled h]
  cases hrun : embedAll (embedder.callOf engine options cancelled) chunks with
  | ok embedded =>
    rw [hrun] at hsafe
    obtain ⟨hok, hattached⟩ := hsafe
    refine ⟨embedded, rfl, ?_, fun _ => hattached⟩
    intro hfailed
    rw [hok] at hfailed
    cases hfailed
  | error stop =>
    rw [hrun] at hsafe
    cases stop with
    | wrapped => exact hsafe.elim
    | endless => exact hsafe.elim
    | returned status =>
      have hfailed : status.ok = false := hsafe
      refine ⟨_, rfl, fun _ => rfl, ?_⟩
      intro hok
      exact absurd hok (by simpa using hfailed)

/-- With an engine that embeds each text for itself, and no cancelling, what a call leaves is a
matter of whether the chunks can be embedded. -/
theorem embed_of_isPure (hready : embedder.Ready engine) (henabled : options.enabled)
    (h : (embedder.validate options).ok) {cancelled : ℕ → Bool}
    (hpure : (embedder.callOf engine options cancelled).IsPure vector)
    (hcancelled : ∀ n, cancelled n = false) {result : Embedded ρ}
    (hresult : embed embedder options cancelled chunks = some result) :
  let call := embedder.callOf engine options cancelled
  (result.status.ok ↔ call.Embeddable vector 0 chunks) ∧
    (result.status.ok → result.chunks = attach chunks (chunks.map (call.embedChunk vector))) ∧
    (result.status.ok = false → result.chunks = chunks)
  := by
  have hvalid := callOf_valid hready henabled h cancelled
  have hiff := embedAll_isOk_iff hvalid hpure hcancelled chunks
  have hsafe := embedAll_safe hvalid chunks
  rw [embed_enabled hready henabled h] at hresult
  dsimp only
  rw [← hiff]
  cases hrun : embedAll (embedder.callOf engine options cancelled) chunks with
  | ok embedded =>
    obtain ⟨hok, hchunks⟩ := embedAll_chunks hvalid hpure hrun
    simp only [hrun, Option.some.injEq] at hresult
    subst hresult
    refine ⟨⟨fun _ => ⟨_, rfl⟩, fun _ => hok⟩, fun _ => hchunks, ?_⟩
    intro hfailed
    rw [hok] at hfailed
    cases hfailed
  | error stop =>
    rw [hrun] at hsafe
    cases stop with
    | wrapped => exact hsafe.elim
    | endless => exact hsafe.elim
    | returned status =>
      simp only [hrun, Option.some.injEq] at hresult
      subst hresult
      have hfailed : status.ok = false := hsafe
      refine ⟨⟨?_, ?_⟩, ?_, fun _ => rfl⟩
      · intro hok
        exact absurd hok (by simpa using hfailed)
      · rintro ⟨_, himpossible⟩
        cases himpossible
      · intro hok
        exact absurd hok (by simpa using hfailed)

/-- A call with options that a server accepts ends, wraps no size, and leaves the chunks as they
are unless its status is OK.  Turned on, and with the status OK, it attaches to every chunk the
vector that the engine returned for its text, in batches within the limits.  For an engine that
embeds each text for itself the size of the batches does not matter. -/
theorem embed_allOrNothing {engine : Option EmbeddingEngine} {config : EmbeddingConfig}
    {embedder : ChunkEmbedder} (hcreate : create engine config = .ok embedder)
    {options : EmbeddingOptions} (haccepted : (embedder.validate options).ok)
    (cancelled : ℕ → Bool) (chunks : List (Chunk ρ)) :
  ∃ result, embed embedder options cancelled chunks = some result ∧
    (result.status.ok = false → result.chunks = chunks) ∧
    (options.enabled = false → result.status.ok ∧ result.chunks = chunks) ∧
    (options.enabled → result.status.ok → ∃ loaded, engine = some loaded ∧ ∃ parts answers,
      (embedder.callOf loaded options cancelled).Attached chunks result parts answers) ∧
    ∀ loaded vector size other, engine = some loaded →
      (∀ turn texts, ∃ status : Status, status.ok ∧
        loaded.embed turn texts = .returned status loaded.identity (texts.map vector)) →
      (∀ n, cancelled n = false) → (embedder.validate { options with batchSize := size }).ok →
      embed embedder { options with batchSize := size } cancelled chunks = some other →
      other.status.ok = result.status.ok ∧ other.chunks = result.chunks
  := by
  have hengine := engine_of_create hcreate
  cases henabled : options.enabled with
  | false =>
    refine ⟨_, embed_disabled henabled cancelled chunks, fun _ => rfl, fun _ => ⟨haccepted, rfl⟩,
      by simp, ?_⟩
    intro loaded vector size other _ _ _ haccepted' hother
    rw [embed_disabled rfl] at hother
    obtain rfl := Option.some.inj hother
    exact ⟨haccepted'.trans haccepted.symm, rfl⟩
  | true =>
    obtain ⟨loaded, hloaded⟩ := Option.isSome_iff_exists.mp (batchSize_of_validate henabled haccepted).1
    obtain rfl : engine = some loaded := hengine.symm.trans hloaded
    have hready := ready_of_create hcreate
    obtain ⟨result, hresult, hfailed, hok⟩ :=
      embed_result hready henabled haccepted cancelled chunks
    refine ⟨result, hresult, hfailed, by simp, fun _ h => ⟨loaded, rfl, hok h⟩, ?_⟩
    intro loaded' vector size other hsome hpure hcancelled haccepted' hother
    obtain rfl := Option.some.inj hsome
    rw [← hready.identity_eq] at hpure
    obtain ⟨hiff, hchunks, hleft⟩ :=
      embed_of_isPure hready henabled haccepted hpure hcancelled hresult
    obtain ⟨hiff', hchunks', hleft'⟩ :=
      embed_of_isPure hready rfl haccepted' hpure hcancelled hother
    have hsame : result.status.ok ↔ other.status.ok := by
      rw [hiff, hiff']
      constructor
      · intro h
        exact ⟨h.fits, h.vectors, h.bytes⟩
      · intro h
        exact ⟨h.fits, h.vectors, h.bytes⟩
    refine ⟨(Bool.eq_iff_iff.mpr hsame).symm, ?_⟩
    cases hstatus : result.status.ok with
    | true =>
      rw [hchunks hstatus, hchunks' (hsame.mp hstatus)]
      rfl
    | false =>
      have hstatus' : other.status.ok = false := (Bool.eq_iff_iff.mpr hsame).symm.trans hstatus
      rw [hleft hstatus, hleft' hstatus']

/-- An engine for the one model, which throws. -/
def throwingEngine : EmbeddingEngine where
  identity :=
    { modelId := kModelId, revision := "r", backend := "cpu", pooling := "attention-mask-mean",
      dimensions := 384, maxInputTokens := 256 }
  maxBatchSize := 2
  embed _ _ := .thrown false

def throwingEmbedder : ChunkEmbedder where
  engine := some throwingEngine
  config := {}
  identity := throwingEngine.identity
  batchSize := 2

theorem create_throwing :
  create (some throwingEngine) {} = .ok throwingEmbedder
  := by
  have hlimits : ¬((32 : ℕ) = 0 ∨ 2 ^ 32 ≤ 32 ∨ 1024 * 1024 = 0 ∨ 64 * 1024 * 1024 = 0) := by
    decide
  rw [create, if_neg hlimits]
  dsimp only
  rw [if_neg (by decide), if_neg (by decide), if_neg (by decide)]
  rfl

theorem embed_allOrNothing_throwing :
  ∃ result, embed throwingEmbedder { enabled := true } (fun _ => false)
      [(⟨[0x61], [], none, ()⟩ : Chunk Unit)] = some result ∧
    (result.status.ok = false → result.chunks = [⟨[0x61], [], none, ()⟩])
  := by
  obtain ⟨result, hresult, hfailed, -⟩ := @embed_allOrNothing Unit (some throwingEngine) {}
    throwingEmbedder create_throwing { enabled := true } rfl (fun _ => false)
    [⟨[0x61], [], none, ()⟩]
  exact ⟨result, hresult, hfailed⟩

/-- Options that leave embedding off are accepted, and the status is OK, but nothing is
attached. -/
theorem embed_off :
  create none {} = .ok { engine := none, config := {} } ∧
    (validate { engine := none, config := {} } {}).ok ∧
    embed { engine := none, config := {} } {} (fun _ => false)
      [(⟨[0x61], [], none, ()⟩ : Chunk Unit)]
        = some { status := {}, chunks := [⟨[0x61], [], none, ()⟩] }
  := ⟨rfl, rfl, rfl⟩

end GRParse.Embedding
