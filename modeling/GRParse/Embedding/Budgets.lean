import GRParse.Embedding.ChunkEmbedder
import Mathlib.Algebra.BigOperators.Group.List.Basic
import Mathlib.Algebra.Order.Ring.Int

/-!
# The budgets of a batch

The subtractions that keep the budgets of bytes never wrap: what was taken from a budget never
exceeds it.  With this, filling a batch and charging for what comes back are sums, and the
refusal before the engine is called refuses nothing that would not be refused for its
embeddings.
-/

namespace GRParse.Embedding

/-! ### Safety -/

/-- A computation that stops, if at all, with a status that is not OK, and what is known of its
result. -/
def Safe {α : Type} (x : Except Stop α) (p : α → Prop) : Prop :=
  match x with
  | .ok a => p a
  | .error (.returned status) => status.ok = false
  | .error _ => False

section

variable {α β : Type} {p q : α → Prop} {r : β → Prop}

theorem Safe.bind {x : Except Stop α} {f : α → Except Stop β} (h : Safe x p)
    (hf : ∀ a, x = .ok a → p a → Safe (f a) r) :
  Safe (x >>= f) r
  := by
  cases x with
  | ok a => exact hf a rfl h
  | error stop => cases stop <;> exact h

theorem Safe.mono {x : Except Stop α} (h : Safe x p) (hpq : ∀ a, p a → q a) :
  Safe x q
  := by
  cases x with
  | ok a => exact hpq a h
  | error stop => cases stop <;> exact h

theorem safe_refuse {code : StatusCode} (h : code ≠ .ok) (message : String) :
  Safe (refuse code message) p
  := decide_eq_false h

end

theorem asSize_of_le {a b : ℕ} (h : b ≤ a) (hlt : a < 2 ^ 64) :
  asSize (a - b) = .ok (a - b)
  := by
  rw [asSize, if_pos (by omega), ← Nat.cast_sub h, Int.toNat_natCast]

theorem asSize_of_lt {a b c : ℕ} (h : a + b ≤ c) (hlt : c < 2 ^ 64) :
  asSize (a + b) = .ok (a + b)
  := by
  rw [asSize, if_pos (by omega), ← Nat.cast_add, Int.toNat_natCast]

/-! ### Texts -/

theorem headingsFit_eq {limit : ℕ} (hlimit : limit < 2 ^ 64) (headings : List Text) {bytes : ℕ}
    (hbytes : bytes ≤ limit) :
  headingsFit limit bytes headings
    = .ok (if bytes + (headings.flatMap (· ++ [0x0a])).length ≤ limit then
        some (bytes + (headings.flatMap (· ++ [0x0a])).length)
      else none)
  := by
  induction headings generalizing bytes with
  | nil => simp [headingsFit, hbytes]
  | cons heading headings ih =>
    rw [headingsFit, asSize_of_le hbytes hlimit, Traverse.ok_bind, List.flatMap_cons,
      List.length_append, List.length_append, List.length_singleton]
    by_cases hfits : limit - bytes ≤ heading.length
    · rw [if_pos hfits, if_neg (by omega)]
    · have hsum := @asSize_of_lt bytes (heading.length + 1) limit (by omega) hlimit
      push_cast at hsum
      rw [if_neg hfits, hsum, Traverse.ok_bind, ih (by omega)]
      simp only [Nat.add_assoc]

variable {ρ : Type}

/-- Whether the text of a chunk fits a batch. -/
def Fits (contextualized : Bool) (limit : ℕ) (chunk : Chunk ρ) : Prop :=
  (embeddingText chunk contextualized).length ≤ limit

/-- `text_fits` tells whether the whole text fits, and how long it is. -/
theorem textFits_eq {limit : ℕ} (hlimit : limit < 2 ^ 64) (contextualized : Bool)
    (chunk : Chunk ρ) :
  textFits chunk contextualized limit
    = .ok (if (embeddingText chunk contextualized).length ≤ limit then
        some (embeddingText chunk contextualized).length
      else none)
  := by
  unfold textFits embeddingText
  cases contextualized with
  | false =>
    by_cases htext : limit < chunk.text.length
    · simp [htext, htext.not_ge]
    · simp [htext, not_lt.mp htext]
  | true =>
    by_cases htext : limit < chunk.text.length
    · rw [if_pos htext, if_neg (by simp; omega)]
    · rw [if_neg htext, if_pos rfl, if_pos rfl, headingsFit_eq hlimit _ (not_lt.mp htext),
        List.length_append, Nat.add_comm]

/-! ### Batches -/

/-- The bytes of the texts of chunks. -/
def textBytes (contextualized : Bool) (chunks : List (Chunk ρ)) : ℕ :=
  (chunks.map fun chunk => (embeddingText chunk contextualized).length).sum

/-- The chunks of a batch, those behind them, and the bytes of their texts. -/
structure Filled (contextualized : Bool) (limit maxBatchBytes : ℕ) (texts : List Text)
    (batchBytes : ℕ) (chunks : List (Chunk ρ)) (result : List Text × ℕ) (batch : List (Chunk ρ)) :
    Prop where
  batch_prefix : batch <+: chunks
  texts_eq : result.1 = texts ++ batch.map (embeddingText · contextualized)
  length_le : result.1.length ≤ max texts.length limit
  bytes_eq : result.2 = batchBytes + textBytes contextualized batch
  bytes_le : result.2 ≤ maxBatchBytes
  fits : ∀ chunk ∈ batch, Fits contextualized maxBatchBytes chunk
  ne_nil : texts.length < limit → batchBytes = 0 → chunks ≠ [] → batch ≠ []

open ChunkEmbedder

theorem fillBatch_cons {limit maxBatchBytes : ℕ} (hmax : maxBatchBytes < 2 ^ 64)
    (contextualized : Bool) (texts : List Text) {batchBytes : ℕ}
    (hbytes : batchBytes ≤ maxBatchBytes) (chunk : Chunk ρ) (chunks : List (Chunk ρ)) :
  fillBatch limit maxBatchBytes contextualized texts batchBytes (chunk :: chunks)
    = let text := embeddingText chunk contextualized
      if texts.length < limit then
        if text.length ≤ maxBatchBytes then
          if batchBytes + text.length ≤ maxBatchBytes then
            fillBatch limit maxBatchBytes contextualized (texts ++ [text])
              (batchBytes + text.length) chunks
          else .ok (texts, batchBytes)
        else refuse .resourceExhausted "chunk embedding input exceeds batch byte limit"
      else .ok (texts, batchBytes)
  := by
  rw [fillBatch]
  by_cases hlimit : texts.length < limit
  · rw [if_pos hlimit, textFits_eq hmax, Traverse.ok_bind]
    by_cases hfits : (embeddingText chunk contextualized).length ≤ maxBatchBytes
    · simp only [hlimit, hfits, if_true]
      rw [asSize_of_le hbytes hmax, Traverse.ok_bind]
      by_cases hleft : batchBytes + (embeddingText chunk contextualized).length ≤ maxBatchBytes
      · rw [if_neg (by omega), if_pos hleft, asSize_of_lt hleft hmax, Traverse.ok_bind]
      · rw [if_pos (by omega), if_neg hleft]
    · simp only [hlimit, hfits, if_true, if_false]
  · simp only [hlimit, if_false]

/-- A batch without another chunk. -/
theorem Filled.nil {contextualized : Bool} {limit maxBatchBytes : ℕ} {texts : List Text}
    {batchBytes : ℕ} {chunks : List (Chunk ρ)} (hbytes : batchBytes ≤ maxBatchBytes)
    (h : texts.length < limit → batchBytes = 0 → chunks = []) :
  Filled contextualized limit maxBatchBytes texts batchBytes chunks (texts, batchBytes) []
  where
  batch_prefix := List.nil_prefix
  texts_eq := (List.append_nil _).symm
  length_le := le_max_left _ _
  bytes_eq := rfl
  bytes_le := hbytes
  fits := by simp
  ne_nil hlt hzero hne := absurd (h hlt hzero) hne

/-- A batch with one more chunk at its start. -/
theorem Filled.cons {contextualized : Bool} {limit maxBatchBytes : ℕ} {texts : List Text}
    {batchBytes : ℕ} {chunk : Chunk ρ} {chunks batch : List (Chunk ρ)} {result : List Text × ℕ}
    (hlimit : texts.length < limit) (hfits : Fits contextualized maxBatchBytes chunk)
    (h : Filled contextualized limit maxBatchBytes (texts ++ [embeddingText chunk contextualized])
      (batchBytes + (embeddingText chunk contextualized).length) chunks result batch) :
  Filled contextualized limit maxBatchBytes texts batchBytes (chunk :: chunks) result
    (chunk :: batch)
  where
  batch_prefix := (List.prefix_cons_inj chunk).mpr h.batch_prefix
  texts_eq := by
    rw [h.texts_eq]
    simp
  length_le := by
    have hle := h.length_le
    rw [List.length_append, List.length_singleton] at hle
    omega
  bytes_eq := by
    rw [h.bytes_eq, textBytes, textBytes, List.map_cons, List.sum_cons, Nat.add_assoc]
  bytes_le := h.bytes_le
  fits := List.forall_mem_cons.mpr ⟨hfits, h.fits⟩
  ne_nil _ _ _ := List.cons_ne_nil _ _

/-- Filling a batch takes the chunks from the front, at least one, and stops only at a chunk whose
text fits no batch. -/
theorem fillBatch_safe {limit maxBatchBytes : ℕ} (hmax : maxBatchBytes < 2 ^ 64)
    (contextualized : Bool) : ∀ (texts : List Text) {batchBytes : ℕ} (chunks : List (Chunk ρ)),
    batchBytes ≤ maxBatchBytes →
  Safe (fillBatch limit maxBatchBytes contextualized texts batchBytes chunks) fun result =>
    ∃ batch, Filled contextualized limit maxBatchBytes texts batchBytes chunks result batch
  | texts, batchBytes, [], hbytes => ⟨[], .nil hbytes fun _ _ => rfl⟩
  | texts, batchBytes, chunk :: chunks, hbytes => by
    rw [fillBatch_cons hmax contextualized texts hbytes]
    dsimp only
    by_cases hlimit : texts.length < limit
    · rw [if_pos hlimit]
      by_cases hfits : (embeddingText chunk contextualized).length ≤ maxBatchBytes
      · rw [if_pos hfits]
        by_cases hleft : batchBytes + (embeddingText chunk contextualized).length ≤ maxBatchBytes
        · rw [if_pos hleft]
          apply (fillBatch_safe hmax contextualized _ chunks hleft).mono
          rintro result ⟨batch, hbatch⟩
          exact ⟨chunk :: batch, .cons hlimit hfits hbatch⟩
        · rw [if_neg hleft]
          exact ⟨[], .nil hbytes fun _ hzero => absurd hleft (by omega)⟩
      · rw [if_neg hfits]
        apply safe_refuse (by decide)
    · rw [if_neg hlimit]
      exact ⟨[], .nil hbytes fun hlt => absurd hlt hlimit⟩

/-- Where every text fits a batch, filling one does not stop. -/
theorem fillBatch_isOk {limit maxBatchBytes : ℕ} (hmax : maxBatchBytes < 2 ^ 64)
    {contextualized : Bool} : ∀ (texts : List Text) {batchBytes : ℕ} {chunks : List (Chunk ρ)},
    batchBytes ≤ maxBatchBytes → (∀ chunk ∈ chunks, Fits contextualized maxBatchBytes chunk) →
  ∃ result, fillBatch limit maxBatchBytes contextualized texts batchBytes chunks = .ok result
  | texts, batchBytes, [], _, _ => ⟨_, rfl⟩
  | texts, batchBytes, chunk :: chunks, hbytes, hfits => by
    obtain ⟨hchunk, hchunks⟩ := List.forall_mem_cons.mp hfits
    rw [fillBatch_cons hmax contextualized texts hbytes]
    dsimp only
    split
    case isFalse => exact ⟨_, rfl⟩
    case isTrue =>
      rw [if_pos (show (embeddingText chunk contextualized).length ≤ maxBatchBytes from hchunk)]
      split
      case isFalse => exact ⟨_, rfl⟩
      case isTrue hleft => exact fillBatch_isOk hmax _ hleft hchunks

/-! ### Charges -/

/-- The embedding of a text. -/
def embeddingOf (identity : EmbeddingModelIdentity) (textMode : EmbeddingTextMode)
    (answer : Text × List Float32) : ChunkEmbedding :=
  ⟨answer.2, modelProto identity, answer.1, textMode⟩

/-- The bytes of embeddings in a response. -/
def responseSize (embeddings : List ChunkEmbedding) : ℕ :=
  (embeddings.map ChunkEmbedding.byteSize).sum

/-- An embedding takes more than its text and four bytes for each of its numbers. -/
theorem le_byteSize (embedding : ChunkEmbedding) :
  embedding.embeddedText.length + 4 * embedding.values.length ≤ embedding.byteSize
  := by
  have hstring : ∀ length, length ≤ stringSize length := by
    intro length
    unfold stringSize delimitedSize
    split <;> omega
  have htext := hstring embedding.embeddedText.length
  have hvalues := hstring (4 * embedding.values.length)
  unfold ChunkEmbedding.byteSize
  omega

theorem checkVector_safe (dimensions : ℕ) (values : List Float32) :
  Safe (checkVector dimensions values) fun _ => values.length = dimensions
  := by
  unfold checkVector
  split
  case isTrue => apply safe_refuse (by decide)
  case isFalse hlength =>
    split
    case isTrue => apply safe_refuse (by decide)
    case isFalse =>
      dsimp only
      split
      case isTrue => apply safe_refuse (by decide)
      case isFalse => exact not_not.mp hlength

theorem charge_cons (identity : EmbeddingModelIdentity) (textMode : EmbeddingTextMode)
    {maxResponseBytes : ℕ} (hmax : maxResponseBytes < 2 ^ 64) {responseBytes : ℕ}
    (hbytes : responseBytes ≤ maxResponseBytes) (answer : Text × List Float32)
    (answers : List (Text × List Float32)) :
  charge identity textMode maxResponseBytes responseBytes (answer :: answers)
    = (checkVector identity.dimensions answer.2 >>= fun _ =>
        let embedding := embeddingOf identity textMode answer
        if responseBytes + embedding.byteSize ≤ maxResponseBytes then
          charge identity textMode maxResponseBytes (responseBytes + embedding.byteSize) answers
            >>= fun rest => .ok (embedding :: rest.1, rest.2)
        else refuse .resourceExhausted "chunk embeddings exceed response byte limit")
  := by
  obtain ⟨text, values⟩ := answer
  have hembedding : (⟨values, modelProto identity, text, textMode⟩ : ChunkEmbedding)
      = embeddingOf identity textMode (text, values) := rfl
  rw [charge, asSize_of_le hbytes hmax]
  simp only [hembedding, Traverse.ok_bind]
  apply bind_congr
  intro _
  by_cases hfits : responseBytes + (embeddingOf identity textMode (text, values)).byteSize
      ≤ maxResponseBytes
  · rw [if_pos hfits, if_neg (by omega), asSize_of_lt hfits hmax]
    rfl
  · rw [if_neg hfits, if_pos (by omega)]

/-- Charging goes through when every vector passes its checks and the embeddings fit what is left
of the response. -/
theorem charge_eq_ok_iff (identity : EmbeddingModelIdentity) (textMode : EmbeddingTextMode)
    {maxResponseBytes : ℕ} (hmax : maxResponseBytes < 2 ^ 64) :
    ∀ {answers : List (Text × List Float32)} {responseBytes : ℕ}
    {result : List ChunkEmbedding × ℕ}, responseBytes ≤ maxResponseBytes →
  (charge identity textMode maxResponseBytes responseBytes answers = .ok result
    ↔ (∀ answer ∈ answers, checkVector identity.dimensions answer.2 = .ok ()) ∧
      result = (answers.map (embeddingOf identity textMode),
        responseBytes + responseSize (answers.map (embeddingOf identity textMode))) ∧
      result.2 ≤ maxResponseBytes)
  | [], responseBytes, result, hbytes => by
    simp only [charge, responseSize, List.map_nil, List.sum_nil, Except.ok.injEq]
    constructor
    · rintro rfl
      exact ⟨by simp, rfl, hbytes⟩
    · rintro ⟨-, rfl, -⟩
      rfl
  | answer :: answers, responseBytes, result, hbytes => by
    rw [charge_cons identity textMode hmax hbytes, List.map_cons]
    cases hcheck : checkVector identity.dimensions answer.2 with
    | error stop =>
      constructor
      · intro h
        cases h
      · rintro ⟨hall, -⟩
        rw [hall answer List.mem_cons_self] at hcheck
        cases hcheck
    | ok _ =>
      rw [Traverse.ok_bind]
      dsimp only
      by_cases hfits : responseBytes + (embeddingOf identity textMode answer).byteSize
          ≤ maxResponseBytes
      · rw [if_pos hfits, Traverse.bind_eq_ok]
        constructor
        · rintro ⟨rest, hrest, hresult⟩
          obtain ⟨hall, rfl, hle⟩ := (charge_eq_ok_iff identity textMode hmax hfits).mp hrest
          obtain rfl := Except.ok.inj hresult
          refine ⟨List.forall_mem_cons.mpr ⟨hcheck, hall⟩, ?_, hle⟩
          simp only [responseSize, List.map_cons, List.sum_cons, Nat.add_assoc]
        · rintro ⟨hall, rfl, hle⟩
          refine ⟨_, (charge_eq_ok_iff identity textMode hmax hfits).mpr
            ⟨(List.forall_mem_cons.mp hall).2, rfl, ?_⟩, ?_⟩
          · simpa only [responseSize, List.map_cons, List.sum_cons, Nat.add_assoc] using hle
          · simp only [responseSize, List.map_cons, List.sum_cons, Nat.add_assoc]
      · rw [if_neg hfits]
        constructor
        · intro h
          cases h
        · rintro ⟨-, rfl, hle⟩
          apply absurd _ hfits
          simp only [responseSize, List.map_cons, List.sum_cons] at hle
          omega

theorem charge_safe (identity : EmbeddingModelIdentity) (textMode : EmbeddingTextMode)
    {maxResponseBytes : ℕ} (hmax : maxResponseBytes < 2 ^ 64) :
    ∀ (answers : List (Text × List Float32)) {responseBytes : ℕ},
    responseBytes ≤ maxResponseBytes →
  Safe (charge identity textMode maxResponseBytes responseBytes answers) fun result =>
    result.1 = answers.map (embeddingOf identity textMode) ∧ result.2 ≤ maxResponseBytes
  | [], responseBytes, hbytes => ⟨rfl, hbytes⟩
  | answer :: answers, responseBytes, hbytes => by
    rw [charge_cons identity textMode hmax hbytes]
    apply (checkVector_safe identity.dimensions answer.2).bind
    intro _ _ _
    dsimp only
    split
    case isTrue hfits =>
      apply (charge_safe identity textMode hmax answers hfits).bind
      rintro ⟨embeddings, bytes⟩ _ ⟨rfl, hle⟩
      exact ⟨rfl, hle⟩
    case isFalse => exact safe_refuse (by decide) _

end GRParse.Embedding
