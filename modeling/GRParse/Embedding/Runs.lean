import GRParse.Embedding.Budgets
import Mathlib.Data.List.Zip

/-!
# Runs of the chunk embedder

A run of `embed` ends, without a size that wraps.  It attaches an embedding to every chunk or to
none, and each is of the vector that the engine returned for the text of the chunk.  Whether a
run succeeds is a matter of the texts, their vectors and the bytes of all embeddings, so that
for an engine that embeds each text for itself the size of the batches does not matter.
-/

namespace GRParse.Embedding

open ChunkEmbedder List

variable {ρ : Type}

namespace ChunkEmbedder

/-- What the constructor and `validate` have checked. -/
structure Call.Valid (call : Call) : Prop where
  batchLimit_pos : 0 < call.batchLimit
  batchLimit_lt : call.batchLimit < 2 ^ 32
  dimensions : call.identity.dimensions = 384

/-- What a batch is allowed to be. -/
structure Call.IsBatch (call : Call) (batch : List (Chunk ρ)) : Prop where
  ne_nil : batch ≠ []
  length_le : batch.length ≤ call.batchLimit
  bytes_le : textBytes call.contextualized batch ≤ call.config.maxBatchBytes

/-- The text of a chunk. -/
def Call.textOf (call : Call) (chunk : Chunk ρ) : Text :=
  embeddingText chunk call.contextualized

/-- The embedding of a text. -/
def Call.embeddingOf (call : Call) (answer : Text × List Float32) : ChunkEmbedding :=
  Embedding.embeddingOf call.identity call.textMode answer

end ChunkEmbedder

/-! ### Batches -/

theorem asSize_vectorBytes {length dimensions : ℕ} (hlength : length < 2 ^ 32)
    (hdimensions : dimensions = 384) :
  asSize (length * dimensions * 4) = .ok (length * 384 * 4)
  := by
  subst hdimensions
  rw [asSize, if_pos (by omega)]
  congr 1

variable {call : Call}

theorem length_le_of_filled {chunks batch : List (Chunk ρ)} {result : List Text × ℕ}
    (h : Filled call.contextualized call.batchLimit call.config.maxBatchBytes [] 0 chunks result
      batch) :
  batch.length ≤ call.batchLimit
  := by
  have hlength := h.length_le
  rw [h.texts_eq] at hlength
  simpa using hlength

variable {responseBytes : ℕ}

/-- Where a batch is filled, and not refused, it is the next one. -/
theorem nextBatch_of_filled (hcall : call.Valid)
    (hbytes : responseBytes ≤ call.config.maxResponseBytes) {chunks batch : List (Chunk ρ)}
    {texts : List Text} {batchBytes : ℕ}
    (hfill : fillBatch call.batchLimit call.config.maxBatchBytes call.contextualized [] 0 chunks
      = .ok (texts, batchBytes))
    (hbatch : Filled call.contextualized call.batchLimit call.config.maxBatchBytes [] 0 chunks
      (texts, batchBytes) batch) :
  nextBatch call responseBytes chunks
    = if call.config.maxResponseBytes - responseBytes < batchBytes + texts.length * 384 * 4 then
        refuse .resourceExhausted "chunk embeddings exceed response byte limit"
      else .ok texts
  := by
  have htexts : texts.length = batch.length := by
    rw [show texts = [] ++ batch.map _ from hbatch.texts_eq, nil_append, length_map]
  have htextsLength : texts.length < 2 ^ 32 := by
    rw [htexts]
    exact lt_of_le_of_lt (length_le_of_filled hbatch) hcall.batchLimit_lt
  have hmax := call.config.maxResponseBytes_lt
  rw [nextBatch, hfill, Traverse.ok_bind]
  dsimp only
  rw [asSize_vectorBytes htextsLength hcall.dimensions, Traverse.ok_bind,
    asSize_of_le hbytes hmax, Traverse.ok_bind]
  by_cases htextBytes : call.config.maxResponseBytes - responseBytes < batchBytes
  · rw [if_pos htextBytes, if_pos (by omega)]
  · rw [if_neg htextBytes, asSize_of_le (by omega) (by omega), Traverse.ok_bind]
    by_cases hvectorBytes : call.config.maxResponseBytes - responseBytes - batchBytes
        < texts.length * 384 * 4
    · rw [if_pos hvectorBytes, if_pos (by omega)]
    · rw [if_neg hvectorBytes, if_neg (by omega)]

/-- The chunks of the next batch are the first ones that are left. -/
theorem nextBatch_safe (hcall : call.Valid)
    (hbytes : responseBytes ≤ call.config.maxResponseBytes) {chunks : List (Chunk ρ)}
    (hne : chunks ≠ []) :
  Safe (nextBatch call responseBytes chunks) fun texts =>
    ∃ batch, batch <+: chunks ∧ texts = batch.map call.textOf ∧ call.IsBatch batch ∧
      ∀ chunk ∈ batch, Fits call.contextualized call.config.maxBatchBytes chunk
  := by
  have hfilled := @fillBatch_safe ρ call.batchLimit _ call.config.maxBatchBytes_lt
    call.contextualized [] 0 chunks (Nat.zero_le _)
  cases hfill : fillBatch call.batchLimit call.config.maxBatchBytes call.contextualized [] 0 chunks
    with
  | error stop =>
    rw [hfill] at hfilled
    rw [nextBatch, hfill, Traverse.error_bind]
    cases stop <;> exact hfilled
  | ok result =>
    rw [hfill] at hfilled
    obtain ⟨batch, hbatch⟩ := hfilled
    rw [nextBatch_of_filled hcall hbytes hfill hbatch]
    split
    case isTrue => exact safe_refuse (by decide) _
    case isFalse =>
      refine ⟨batch, hbatch.batch_prefix, hbatch.texts_eq,
        ⟨hbatch.ne_nil hcall.batchLimit_pos rfl hne, length_le_of_filled hbatch, ?_⟩, hbatch.fits⟩
      have hle := hbatch.bytes_le
      rwa [hbatch.bytes_eq, Nat.zero_add] at hle

/-- What is refused before the engine is called is less than what the embeddings take. -/
theorem textBytes_add_le {call : Call} {vector : Text → List Float32} {chunks : List (Chunk ρ)}
    (hvectors : ∀ chunk ∈ chunks, (vector (call.textOf chunk)).length = 384) :
  textBytes call.contextualized chunks + chunks.length * 384 * 4
    ≤ responseSize (chunks.map fun chunk =>
      call.embeddingOf (call.textOf chunk, vector (call.textOf chunk)))
  := by
  induction chunks with
  | nil => simp [textBytes]
  | cons chunk chunks ih =>
    obtain ⟨hchunk, hchunks⟩ := forall_mem_cons.mp hvectors
    have hle := ih hchunks
    have hbytes := le_byteSize (call.embeddingOf (call.textOf chunk, vector (call.textOf chunk)))
    have htext : (call.embeddingOf (call.textOf chunk, vector (call.textOf chunk))).embeddedText.length
        = (embeddingText chunk call.contextualized).length := rfl
    have hvalues : (call.embeddingOf (call.textOf chunk, vector (call.textOf chunk))).values.length
        = 384 := hchunk
    simp only [textBytes, responseSize, map_cons, sum_cons, length_cons] at hle ⊢
    omega

/-- Where the embeddings of all chunks that are left fit the response, and each text a batch, the
next batch is not refused. -/
theorem nextBatch_isOk (hcall : call.Valid) {chunks : List (Chunk ρ)}
    {vector : Text → List Float32}
    (hfits : ∀ chunk ∈ chunks, Fits call.contextualized call.config.maxBatchBytes chunk)
    (hvectors : ∀ chunk ∈ chunks, (vector (call.textOf chunk)).length = 384)
    (hbytes : responseBytes + responseSize (chunks.map fun chunk =>
      call.embeddingOf (call.textOf chunk, vector (call.textOf chunk)))
        ≤ call.config.maxResponseBytes) :
  ∃ texts, nextBatch call responseBytes chunks = .ok texts
  := by
  obtain ⟨⟨texts, batchBytes⟩, hfill⟩ := @fillBatch_isOk ρ call.batchLimit _
    call.config.maxBatchBytes_lt call.contextualized [] 0 chunks (Nat.zero_le _) hfits
  obtain ⟨batch, hbatch⟩ : ∃ batch, Filled call.contextualized call.batchLimit
      call.config.maxBatchBytes [] 0 chunks (texts, batchBytes) batch := by
    have h := @fillBatch_safe ρ call.batchLimit _ call.config.maxBatchBytes_lt call.contextualized []
      0 chunks (Nat.zero_le _)
    rwa [hfill] at h
  obtain ⟨rest, rfl⟩ := hbatch.batch_prefix
  have htexts : texts.length = batch.length := by
    rw [show texts = [] ++ batch.map _ from hbatch.texts_eq, nil_append, length_map]
  have hlower := @textBytes_add_le ρ call vector batch
    fun chunk hchunk => hvectors chunk (mem_append_left _ hchunk)
  have hbatchBytes : batchBytes = 0 + textBytes call.contextualized batch := hbatch.bytes_eq
  simp only [responseSize, map_append, sum_append] at hbytes hlower
  rw [nextBatch_of_filled hcall (by omega) hfill hbatch, if_neg (by omega)]
  exact ⟨texts, rfl⟩

/-! ### Answers -/

theorem receive_safe (hbytes : responseBytes ≤ call.config.maxResponseBytes) (texts : List Text)
    (cancelled : Bool) (outcome : Outcome) :
  Safe (receive call.identity call.textMode call.config.maxResponseBytes responseBytes texts
    cancelled outcome) fun result => ∃ status vectors,
      outcome = .returned status call.identity vectors ∧ status.ok ∧
      vectors.length = texts.length ∧ result.1 = (texts.zip vectors).map call.embeddingOf ∧
      result.2 ≤ call.config.maxResponseBytes
  := by
  cases outcome with
  | thrown badAlloc => cases badAlloc <;> exact safe_refuse (by decide) _
  | returned status model vectors =>
    rw [receive]
    split
    case isTrue => exact safe_refuse (by decide) _
    case isFalse =>
      split
      case isTrue hfailed =>
        show status.ok = false
        simpa using hfailed
      case isFalse hok =>
        split
        case isTrue => exact safe_refuse (by decide) _
        case isFalse hsame =>
          obtain ⟨rfl, hlength⟩ : model = call.identity ∧ vectors.length = texts.length := by
            simpa only [not_or, not_not] using hsame
          apply (charge_safe call.identity call.textMode call.config.maxResponseBytes_lt _ hbytes).mono
          rintro result ⟨hembeddings, hle⟩
          exact ⟨status, vectors, rfl, by simpa using hok, hlength, hembeddings, hle⟩

namespace ChunkEmbedder

/-- What the engine returned for batches of texts, from a turn on. -/
def Call.Answers (call : Call) : ℕ → List (List Text) → List (List (List Float32)) → Prop
  | _, [], [] => True
  | turn, texts :: batches, vectors :: answers =>
    (∃ status, status.ok ∧ call.engine.embed turn texts = .returned status call.identity vectors) ∧
      vectors.length = texts.length ∧ call.Answers (turn + 1) batches answers
  | _, _, _ => False

/-- Batches that cut chunks into pieces, the vectors that were returned for them, and the
embeddings of these. -/
structure Call.Cuts (call : Call) (turn : ℕ) (chunks : List (Chunk ρ))
    (result : List ChunkEmbedding × List (List Text)) (parts : List (List (Chunk ρ)))
    (answers : List (List (List Float32))) : Prop where
  flatten : parts.flatten = chunks
  batches : result.2 = parts.map (·.map call.textOf)
  isBatch : ∀ part ∈ parts, call.IsBatch part
  answered : call.Answers turn result.2 answers
  length : answers.flatten.length = chunks.length
  embeddings : result.1 = ((chunks.map call.textOf).zip answers.flatten).map call.embeddingOf

end ChunkEmbedder

theorem ChunkEmbedder.Call.Cuts.nil (call : Call) (turn : ℕ) :
  call.Cuts turn ([] : List (Chunk ρ)) ([], []) [] []
  where
  flatten := rfl
  batches := rfl
  isBatch := by simp
  answered := trivial
  length := rfl
  embeddings := rfl

theorem ChunkEmbedder.Call.Cuts.cons {call : Call} {turn : ℕ} {part rest : List (Chunk ρ)}
    {vectors : List (List Float32)} {status : Status} {parts : List (List (Chunk ρ))}
    {answers : List (List (List Float32))} {others : List ChunkEmbedding × List (List Text)}
    (hpart : call.IsBatch part) (hstatus : status.ok)
    (hanswer : call.engine.embed turn (part.map call.textOf)
      = .returned status call.identity vectors)
    (hlength : vectors.length = part.length) (h : call.Cuts (turn + 1) rest others parts answers) :
  call.Cuts turn (part ++ rest)
    (((part.map call.textOf).zip vectors).map call.embeddingOf ++ others.1,
      part.map call.textOf :: others.2) (part :: parts) (vectors :: answers)
  where
  flatten := by rw [List.flatten_cons, h.flatten]
  batches := by rw [h.batches, List.map_cons]
  isBatch := List.forall_mem_cons.mpr ⟨hpart, h.isBatch⟩
  answered := ⟨⟨status, hstatus, hanswer⟩, by rw [hlength, List.length_map], h.answered⟩
  length := by rw [List.flatten_cons, List.length_append, List.length_append, hlength, h.length]
  embeddings := by
    rw [h.embeddings, List.map_append, List.flatten_cons,
      List.zip_append (by rw [List.length_map, hlength]), List.map_append]

/-- A run over chunks cuts them into batches and ends, if there are as many turns as chunks. -/
theorem embedFrom_safe {call : Call} (hcall : call.Valid) :
    ∀ (turns turn : ℕ) {responseBytes : ℕ} (chunks : List (Chunk ρ)),
    responseBytes ≤ call.config.maxResponseBytes → chunks.length ≤ turns →
  Safe (embedFrom call turns turn responseBytes chunks) fun result =>
    ∃ parts answers, call.Cuts turn chunks result parts answers
  | _, turn, _, [], _, _ => by
    rw [embedFrom]
    exact ⟨[], [], .nil call turn⟩
  | turns + 1, turn, responseBytes, chunk :: chunks, hbytes, hturns => by
    rw [embedFrom]
    split
    case isTrue => exact safe_refuse (by decide) _
    case isFalse =>
      apply (nextBatch_safe hcall hbytes (List.cons_ne_nil chunk chunks)).bind
      rintro _ _ ⟨part, ⟨rest, hrest⟩, rfl, hpart, -⟩
      apply (receive_safe hbytes _ _ _).bind
      rintro ⟨embeddings, bytes⟩ _ ⟨status, vectors, hanswer, hstatus, hlength, rfl, hle⟩
      have hdrop : (chunk :: chunks).drop (part.map call.textOf).length = rest := by
        rw [← hrest, List.length_map, List.drop_left]
      have hpos := List.length_pos_of_ne_nil hpart.ne_nil
      have hshorter : rest.length ≤ turns := by
        have h := congrArg List.length hrest
        rw [List.length_append, List.length_cons] at h
        rw [List.length_cons] at hturns
        omega
      dsimp only
      rw [hdrop]
      apply (embedFrom_safe hcall turns (turn + 1) rest hle hshorter).bind
      rintro ⟨others, batches⟩ _ ⟨parts, answers, hcuts⟩
      rw [← hrest]
      rw [List.length_map] at hlength
      exact ⟨part :: parts, vectors :: answers, .cons hpart hstatus hanswer hlength hcuts⟩

/-! ### Engines that embed each text for itself -/

namespace ChunkEmbedder

/-- An engine that has a vector for every text and never fails. -/
def Call.IsPure (call : Call) (vector : Text → List Float32) : Prop :=
  ∀ turn texts, ∃ status, status.ok ∧
    call.engine.embed turn texts = .returned status call.identity (texts.map vector)

/-- The embedding of a chunk by such an engine. -/
def Call.embedChunk (call : Call) (vector : Text → List Float32) (chunk : Chunk ρ) :
    ChunkEmbedding :=
  call.embeddingOf (call.textOf chunk, vector (call.textOf chunk))

/-- When chunks can be embedded: each text fits a batch, each vector passes its checks, and what
is left of the response takes the embeddings. -/
structure Call.Embeddable (call : Call) (vector : Text → List Float32) (responseBytes : ℕ)
    (chunks : List (Chunk ρ)) : Prop where
  fits : ∀ chunk ∈ chunks, Fits call.contextualized call.config.maxBatchBytes chunk
  vectors : ∀ chunk ∈ chunks,
    checkVector call.identity.dimensions (vector (call.textOf chunk)) = .ok ()
  bytes : responseBytes + responseSize (chunks.map (call.embedChunk vector))
    ≤ call.config.maxResponseBytes

end ChunkEmbedder

theorem ChunkEmbedder.Call.Embeddable.length {call : Call} (hcall : call.Valid)
    {vector : Text → List Float32} {responseBytes : ℕ} {chunks : List (Chunk ρ)}
    (h : call.Embeddable vector responseBytes chunks) :
  ∀ chunk ∈ chunks, (vector (call.textOf chunk)).length = 384
  := by
  intro chunk hchunk
  have hsafe := checkVector_safe call.identity.dimensions (vector (call.textOf chunk))
  rw [h.vectors chunk hchunk] at hsafe
  exact hsafe.trans hcall.dimensions

/-- Chunks can be embedded if the first ones can, and the others with what is then left. -/
theorem embeddable_append {vector : Text → List Float32} {part rest : List (Chunk ρ)} :
  call.Embeddable vector responseBytes (part ++ rest)
    ↔ (∀ chunk ∈ part, Fits call.contextualized call.config.maxBatchBytes chunk) ∧
      (∀ chunk ∈ part,
        checkVector call.identity.dimensions (vector (call.textOf chunk)) = .ok ()) ∧
      call.Embeddable vector (responseBytes + responseSize (part.map (call.embedChunk vector))) rest
  := by
  constructor
  · intro h
    refine ⟨fun chunk hchunk => h.fits chunk (mem_append_left _ hchunk),
      fun chunk hchunk => h.vectors chunk (mem_append_left _ hchunk),
      fun chunk hchunk => h.fits chunk (mem_append_right _ hchunk),
      fun chunk hchunk => h.vectors chunk (mem_append_right _ hchunk), ?_⟩
    have hbytes := h.bytes
    simp only [responseSize, map_append, sum_append] at hbytes ⊢
    omega
  · rintro ⟨hfits, hvectors, hrest⟩
    refine ⟨forall_mem_append.mpr ⟨hfits, hrest.fits⟩,
      forall_mem_append.mpr ⟨hvectors, hrest.vectors⟩, ?_⟩
    have hbytes := hrest.bytes
    simp only [responseSize, map_append, sum_append] at hbytes ⊢
    omega

/-- The answer of an engine that embeds each text for itself is charged for when its vectors pass
their checks and their embeddings fit. -/
theorem receive_eq_ok_iff {call : Call} {vector : Text → List Float32} {status : Status}
    (hstatus : status.ok) {responseBytes : ℕ}
    (hbytes : responseBytes ≤ call.config.maxResponseBytes) (part : List (Chunk ρ))
    {result : List ChunkEmbedding × ℕ} :
  receive call.identity call.textMode call.config.maxResponseBytes responseBytes
      (part.map call.textOf) false
      (.returned status call.identity ((part.map call.textOf).map vector)) = .ok result
    ↔ (∀ chunk ∈ part,
        checkVector call.identity.dimensions (vector (call.textOf chunk)) = .ok ()) ∧
      result = (part.map (call.embedChunk vector),
        responseBytes + responseSize (part.map (call.embedChunk vector))) ∧
      result.2 ≤ call.config.maxResponseBytes
  := by
  have hzip : (part.map call.textOf).zip ((part.map call.textOf).map vector)
      = part.map fun chunk => (call.textOf chunk, vector (call.textOf chunk)) := by
    rw [map_map, zip_map']
    rfl
  have hembed : (part.map fun chunk => (call.textOf chunk, vector (call.textOf chunk))).map
      (embeddingOf call.identity call.textMode) = part.map (call.embedChunk vector) := by
    rw [map_map]
    rfl
  rw [receive, if_neg (by decide), if_neg (by simpa using hstatus), if_neg (by simp), hzip,
    charge_eq_ok_iff _ _ call.config.maxResponseBytes_lt hbytes, hembed, forall_mem_map]

/-- A run with an engine that embeds each text for itself, and that is not cancelled, gets to its
end when the chunks can be embedded. -/
theorem embedFrom_eq_ok_iff {call : Call} (hcall : call.Valid) {vector : Text → List Float32}
    (hpure : call.IsPure vector) (hcancelled : ∀ n, call.cancelled n = false) :
    ∀ (turns turn : ℕ) {responseBytes : ℕ} (chunks : List (Chunk ρ)),
    responseBytes ≤ call.config.maxResponseBytes → chunks.length ≤ turns →
  ((∃ batches, embedFrom call turns turn responseBytes chunks
      = .ok (chunks.map (call.embedChunk vector), batches))
    ↔ call.Embeddable vector responseBytes chunks)
  | _, turn, responseBytes, [], hbytes, _ => by
    rw [embedFrom]
    constructor
    · intro _
      exact ⟨by simp, by simp, hbytes⟩
    · intro _
      exact ⟨[], rfl⟩
  | turns + 1, turn, responseBytes, chunk :: chunks, hbytes, hturns => by
    have hsafe := nextBatch_safe hcall hbytes (List.cons_ne_nil chunk chunks)
    have hshorter : ∀ {part rest : List (Chunk ρ)}, part ≠ [] → part ++ rest = chunk :: chunks →
        rest.length ≤ turns := by
      intro part rest hne hrest
      have h := congrArg List.length hrest
      have hpos := List.length_pos_of_ne_nil hne
      rw [List.length_append, List.length_cons] at h
      rw [List.length_cons] at hturns
      omega
    rw [embedFrom, hcancelled, if_neg Bool.false_ne_true, hcancelled]
    constructor
    · rintro ⟨batches, h⟩
      obtain ⟨texts, hnext, h⟩ := Traverse.bind_eq_ok.mp h
      rw [hnext] at hsafe
      obtain ⟨part, ⟨rest, hrest⟩, rfl, hpart, hfits⟩ := hsafe
      obtain ⟨status, hstatus, hanswer⟩ := hpure turn (part.map call.textOf)
      rw [hanswer] at h
      obtain ⟨result, hreceive, h⟩ := Traverse.bind_eq_ok.mp h
      obtain ⟨hvectors, rfl, hle⟩ := (receive_eq_ok_iff hstatus hbytes part).mp hreceive
      obtain ⟨⟨others, batches'⟩, hothers, h⟩ := Traverse.bind_eq_ok.mp h
      rw [List.length_map, ← hrest, List.drop_left] at hothers
      rw [← hrest] at h ⊢
      obtain ⟨hembeddings, -⟩ := Prod.mk.inj (Except.ok.inj h)
      rw [List.map_append] at hembeddings
      obtain rfl := List.append_cancel_left hembeddings
      apply embeddable_append.mpr ⟨hfits, hvectors, _⟩
      exact (embedFrom_eq_ok_iff hcall hpure hcancelled turns (turn + 1) rest hle
        (hshorter hpart.ne_nil hrest)).mp ⟨batches', hothers⟩
    · intro hembeddable
      obtain ⟨texts, hnext⟩ := nextBatch_isOk hcall hembeddable.fits
        (hembeddable.length hcall) hembeddable.bytes
      rw [hnext] at hsafe
      obtain ⟨part, ⟨rest, hrest⟩, rfl, hpart, -⟩ := hsafe
      obtain ⟨status, hstatus, hanswer⟩ := hpure turn (part.map call.textOf)
      rw [← hrest] at hembeddable hnext ⊢
      obtain ⟨-, hvectors, hembeddable⟩ := embeddable_append.mp hembeddable
      have hle := (Nat.le_add_right _ _).trans hembeddable.bytes
      have hreceive := (@receive_eq_ok_iff ρ call vector status hstatus responseBytes hbytes part _).mpr
        ⟨hvectors, rfl, hle⟩
      obtain ⟨batches, hothers⟩ := (embedFrom_eq_ok_iff hcall hpure hcancelled turns (turn + 1) rest
        hle (hshorter hpart.ne_nil hrest)).mpr hembeddable
      refine ⟨part.map call.textOf :: batches, ?_⟩
      rw [hnext, Traverse.ok_bind, hanswer, hreceive, Traverse.ok_bind]
      dsimp only
      rw [List.length_map, List.drop_left, hothers, List.map_append]
      rfl

end GRParse.Embedding
