import GRParse.Lib.Traverse
import GRParse.Stream.Status
import Mathlib

/-!
# The chunk embedder

`ChunkEmbedder::embed` hands the texts of the chunks to an engine, in batches, and attaches the
vectors that come back.  Three budgets of bytes are kept by subtraction: what the headings of a
chunk leave for a text, what the texts of a batch leave for the next one, and what the embeddings
leave of the response.  An arithmetic operation that does not fit a `size_t` stops the run, and
so does a loop that does not move on; that neither happens is proved, not assumed.

The engine is outside, and so are the answers to the question whether the call was cancelled:
what the engine does may depend on how often it was called, and an answer on how often it was
asked for.
-/

namespace GRParse.Embedding

/-! ### Engines -/

abbrev Text := List UInt8

structure EmbeddingModelIdentity where
  modelId : String := ""
  revision : String := ""
  backend : String := ""
  pooling : String := ""
  dimensions : ℕ := 0
  maxInputTokens : ℕ := 0
  normalized : Bool := true
  deriving DecidableEq

/-- What a call of an engine comes to.  `thrown` is an exception, of the type `std::bad_alloc` or
not. -/
inductive Outcome where
  | thrown (badAlloc : Bool)
  | returned (status : Status) (model : EmbeddingModelIdentity) (vectors : List (List Float32))

/-- An engine.  Its calls are counted from zero. -/
structure EmbeddingEngine where
  identity : EmbeddingModelIdentity
  maxBatchSize : ℕ
  embed : ℕ → List Text → Outcome

inductive EmbeddingBackend where
  | disabled
  | cpu
  | openvino
  | tensorrt
  deriving DecidableEq

/-- The limits of a server.  Each is a `size_t`. -/
structure EmbeddingConfig where
  backend : EmbeddingBackend := .disabled
  maxBatchSize : ℕ := 32
  maxBatchBytes : ℕ := 1024 * 1024
  maxResponseBytes : ℕ := 64 * 1024 * 1024
  maxBatchBytes_lt : maxBatchBytes < 2 ^ 64 := by decide
  maxResponseBytes_lt : maxResponseBytes < 2 ^ 64 := by decide

structure ChunkEmbedder where
  engine : Option EmbeddingEngine
  config : EmbeddingConfig
  identity : EmbeddingModelIdentity := {}
  batchSize : ℕ := 0

def kModelId : String := "sentence-transformers/all-MiniLM-L6-v2"

/-- The constructor, or the message of what it throws. -/
def ChunkEmbedder.create (engine : Option EmbeddingEngine) (config : EmbeddingConfig) :
    Except String ChunkEmbedder :=
  if config.maxBatchSize = 0 ∨ 2 ^ 32 ≤ config.maxBatchSize ∨ config.maxBatchBytes = 0 ∨
      config.maxResponseBytes = 0 then
    .error "embedding resource limits must be positive and batch size fit uint32"
  else
    match engine with
    | none =>
      if config.backend ≠ .disabled then
        .error "configured embedding backend did not load an engine"
      else .ok { engine := none, config }
    | some engine =>
      let identity := engine.identity
      if identity.modelId ≠ kModelId ∨ identity.revision = "" ∨ identity.dimensions ≠ 384 ∨
          identity.maxInputTokens ≠ 256 ∨ identity.pooling ≠ "attention-mask-mean" ∨
          !identity.normalized ∨ identity.backend ∉ ["cpu", "openvino", "tensorrt"] then
        .error "embedding engine does not implement the supported MiniLM contract"
      else if (config.backend = .cpu ∧ identity.backend ≠ "cpu") ∨
          (config.backend = .openvino ∧ identity.backend ≠ "openvino") ∨
          (config.backend = .tensorrt ∧ identity.backend ≠ "tensorrt") then
        .error "embedding engine differs from the explicitly selected backend"
      else if min config.maxBatchSize engine.maxBatchSize = 0 then
        .error "embedding engine batch size must be positive"
      else
        .ok { engine := some engine, config, identity,
              batchSize := min config.maxBatchSize engine.maxBatchSize }

/-! ### Messages -/

/-- `EmbeddingTextMode`, which may hold a number without a name. -/
inductive EmbeddingTextMode where
  | unspecified
  | text
  | contextualized
  | unnamed (number : ℤ)
  deriving DecidableEq

structure EmbeddingOptions where
  enabled : Bool := false
  modelId : Option String := none
  textMode : EmbeddingTextMode := .unspecified
  batchSize : Option ℕ := none

structure EmbeddingModel where
  modelId : String
  revision : String
  backend : String
  dimensions : ℕ
  pooling : String
  normalized : Bool
  maxInputTokens : ℕ

structure ChunkEmbedding where
  values : List Float32
  model : EmbeddingModel
  embeddedText : Text
  textMode : EmbeddingTextMode

/-- A chunk.  What embedding does not read is of a type of its own. -/
structure Chunk (ρ : Type) where
  text : Text
  headings : List Text
  embedding : Option ChunkEmbedding
  rest : ρ

/-- `model_proto`. -/
def modelProto (identity : EmbeddingModelIdentity) : EmbeddingModel where
  modelId := identity.modelId
  revision := identity.revision
  backend := identity.backend
  dimensions := identity.dimensions % 2 ^ 32
  pooling := identity.pooling
  normalized := identity.normalized
  maxInputTokens := identity.maxInputTokens % 2 ^ 32

/-- The bytes of a number on the wire, seven bits in each. -/
def varintSize (n : ℕ) : ℕ :=
  n.log2 / 7 + 1

/-- The bytes of a field of a message.  The numbers of all fields fit the byte of a tag, and a
field that holds the default is not written. -/
def delimitedSize (length : ℕ) : ℕ :=
  1 + varintSize length + length

def stringSize (length : ℕ) : ℕ :=
  if length = 0 then 0 else delimitedSize length

def uintSize (n : ℕ) : ℕ :=
  if n = 0 then 0 else 1 + varintSize n

/-- `ByteSizeLong` of a model. -/
def EmbeddingModel.byteSize (model : EmbeddingModel) : ℕ :=
  stringSize model.modelId.utf8ByteSize + stringSize model.revision.utf8ByteSize +
    stringSize model.backend.utf8ByteSize + uintSize model.dimensions +
    stringSize model.pooling.utf8ByteSize + (if model.normalized then 2 else 0) +
    uintSize model.maxInputTokens

/-- The bytes of a text mode: a negative number takes ten. -/
def EmbeddingTextMode.byteSize : EmbeddingTextMode → ℕ
  | .unspecified => 0
  | .text | .contextualized => 2
  | .unnamed number => if number < 0 then 11 else uintSize number.toNat

/-- `ByteSizeLong` of an embedding. -/
def ChunkEmbedding.byteSize (embedding : ChunkEmbedding) : ℕ :=
  stringSize (4 * embedding.values.length) + delimitedSize embedding.model.byteSize +
    stringSize embedding.embeddedText.length + embedding.textMode.byteSize

/-! ### Validation -/

namespace ChunkEmbedder

def validate (embedder : ChunkEmbedder) (options : EmbeddingOptions) : Status :=
  if !options.enabled then
    if options.modelId.isSome ∨ options.batchSize.isSome ∨ options.textMode ≠ .unspecified then
      ⟨.invalidArgument, "embedding options require enabled=true"⟩
    else {}
  else if options.textMode ∉ [.unspecified, .text, .contextualized] then
    ⟨.invalidArgument, "unknown embedding text_mode"⟩
  else if options.modelId.any (· ≠ kModelId) then
    ⟨.invalidArgument, "unsupported embedding model_id"⟩
  else if options.batchSize.any (· = 0) then
    ⟨.invalidArgument, "embedding batch_size must be positive"⟩
  else if embedder.engine.isNone then
    ⟨.failedPrecondition, "local embeddings are disabled on this server"⟩
  else if options.batchSize.any (embedder.batchSize < ·) then
    ⟨.invalidArgument, "embedding batch_size exceeds server limit"⟩
  else {}

end ChunkEmbedder

/-! ### Runs -/

/-- Why a run stops before its end. -/
inductive Stop where
  | wrapped
  | endless
  | returned (status : Status)

/-- An arithmetic operation on a `size_t`. -/
def asSize (value : ℤ) : Except Stop ℕ :=
  if 0 ≤ value ∧ value < 2 ^ 64 then .ok value.toNat else .error .wrapped

def refuse {α : Type} (code : StatusCode) (message : String) : Except Stop α :=
  .error (.returned ⟨code, message⟩)

def cancelledStatus {α : Type} : Except Stop α :=
  refuse .cancelled "chunk embedding cancelled"

/-- The loop of `text_fits` over the headings, none if one of them does not fit. -/
def headingsFit (limit : ℕ) : ℕ → List Text → Except Stop (Option ℕ)
  | bytes, [] => .ok (some bytes)
  | bytes, heading :: headings => do
    let left ← asSize (limit - bytes)
    if left ≤ heading.length then .ok none
    else
      let bytes ← asSize (bytes + (heading.length + 1))
      headingsFit limit bytes headings

variable {ρ : Type}

def textFits (chunk : Chunk ρ) (contextualized : Bool) (limit : ℕ) : Except Stop (Option ℕ) :=
  if limit < chunk.text.length then .ok none
  else if contextualized then headingsFit limit chunk.text.length chunk.headings
  else .ok (some chunk.text.length)

def embeddingText (chunk : Chunk ρ) (contextualized : Bool) : Text :=
  (if contextualized then chunk.headings.flatMap (· ++ [0x0a]) else []) ++ chunk.text

namespace ChunkEmbedder

/-- The chunks of the next batch, with the bytes of their texts, behind those that are in it. -/
def fillBatch (limit maxBatchBytes : ℕ) (contextualized : Bool) :
    List Text → ℕ → List (Chunk ρ) → Except Stop (List Text × ℕ)
  | texts, batchBytes, [] => .ok (texts, batchBytes)
  | texts, batchBytes, chunk :: chunks =>
    if texts.length < limit then do
      match ← textFits chunk contextualized maxBatchBytes with
      | none => refuse .resourceExhausted "chunk embedding input exceeds batch byte limit"
      | some bytes =>
        let left ← asSize (maxBatchBytes - batchBytes)
        if left < bytes then .ok (texts, batchBytes)
        else
          let batchBytes ← asSize (batchBytes + bytes)
          fillBatch limit maxBatchBytes contextualized
            (texts ++ [embeddingText chunk contextualized]) batchBytes chunks
    else .ok (texts, batchBytes)

/-- The checks of a vector. -/
def checkVector (dimensions : ℕ) (values : List Float32) : Except Stop Unit :=
  if values.length ≠ dimensions then
    refuse .internal "embedding backend returned incorrect dimensions"
  else if values.any (!·.isFinite) then
    refuse .internal "embedding backend returned non-finite values"
  else
    let normSquared := values.foldl (fun sum value => sum + value.toFloat * value.toFloat) 0
    if (normSquared - 1.0).abs > 1e-3 then
      refuse .internal "embedding backend returned non-normalized values"
    else .ok ()

/-- The embeddings of a batch, and the bytes of the response with them. -/
def charge (identity : EmbeddingModelIdentity) (textMode : EmbeddingTextMode)
    (maxResponseBytes : ℕ) : ℕ → List (Text × List Float32) →
    Except Stop (List ChunkEmbedding × ℕ)
  | responseBytes, [] => .ok ([], responseBytes)
  | responseBytes, (text, values) :: answers => do
    checkVector identity.dimensions values
    let embedding : ChunkEmbedding := ⟨values, modelProto identity, text, textMode⟩
    let left ← asSize (maxResponseBytes - responseBytes)
    if left < embedding.byteSize then
      refuse .resourceExhausted "chunk embeddings exceed response byte limit"
    else
      let responseBytes ← asSize (responseBytes + embedding.byteSize)
      let (embeddings, responseBytes) ← charge identity textMode maxResponseBytes responseBytes answers
      .ok (embedding :: embeddings, responseBytes)

/-- What a batch comes to once the engine has answered. -/
def receive (identity : EmbeddingModelIdentity) (textMode : EmbeddingTextMode)
    (maxResponseBytes responseBytes : ℕ) (texts : List Text) (cancelled : Bool) :
    Outcome → Except Stop (List ChunkEmbedding × ℕ)
  | .thrown true => refuse .resourceExhausted "insufficient memory for chunk embeddings"
  | .thrown false => refuse .internal "chunk embedding inference failed"
  | .returned embedded model vectors =>
    if cancelled then cancelledStatus
    else if !embedded.ok then .error (.returned embedded)
    else if model ≠ identity ∨ vectors.length ≠ texts.length then
      refuse .internal "embedding backend returned inconsistent model or batch size"
    else charge identity textMode maxResponseBytes responseBytes (texts.zip vectors)

/-- What stays the same over the batches of a run. -/
structure Call where
  engine : EmbeddingEngine
  config : EmbeddingConfig
  identity : EmbeddingModelIdentity
  batchLimit : ℕ
  contextualized : Bool
  cancelled : ℕ → Bool

def Call.textMode (call : Call) : EmbeddingTextMode :=
  if call.contextualized then .contextualized else .text

/-- The texts of the next batch, unless what comes back for them cannot fit the response. -/
def nextBatch (call : Call) (responseBytes : ℕ) (chunks : List (Chunk ρ)) :
    Except Stop (List Text) := do
  let (texts, batchBytes) ←
    fillBatch call.batchLimit call.config.maxBatchBytes call.contextualized [] 0 chunks
  let vectorBytes ← asSize (texts.length * call.identity.dimensions * 4)
  let remaining ← asSize (call.config.maxResponseBytes - responseBytes)
  if remaining < batchBytes then
    refuse .resourceExhausted "chunk embeddings exceed response byte limit"
  else
    let left ← asSize (remaining - batchBytes)
    if left < vectorBytes then
      refuse .resourceExhausted "chunk embeddings exceed response byte limit"
    else .ok texts

/-- The loop over the batches: the embeddings of the chunks that are left and the texts that the
engine was given.  In each turn it is asked twice whether the call was cancelled. -/
def embedFrom (call : Call) : ℕ → ℕ → ℕ → List (Chunk ρ) →
    Except Stop (List ChunkEmbedding × List (List Text))
  | _, _, _, [] => .ok ([], [])
  | 0, _, _, _ :: _ => .error .endless
  | turns + 1, turn, responseBytes, chunk :: chunks => do
    if call.cancelled (2 * turn + 1) then cancelledStatus
    else
      let texts ← nextBatch call responseBytes (chunk :: chunks)
      let (embeddings, responseBytes) ←
        receive call.identity call.textMode call.config.maxResponseBytes responseBytes texts
          (call.cancelled (2 * turn + 2)) (call.engine.embed turn texts)
      let (others, batches) ←
        embedFrom call turns (turn + 1) responseBytes ((chunk :: chunks).drop texts.length)
      .ok (embeddings ++ others, texts :: batches)

/-- What a call of `embed` leaves: its status, the chunks, and the texts that the engine was
given where the status is OK. -/
structure Embedded (ρ : Type) where
  status : Status
  chunks : List (Chunk ρ)
  batches : List (List Text) := []

/-- The chunks with embeddings. -/
def attach (chunks : List (Chunk ρ)) (embeddings : List ChunkEmbedding) : List (Chunk ρ) :=
  chunks.zipWith (fun chunk embedding => { chunk with embedding := some embedding }) embeddings

/-- The body of `embed` once the options are accepted. -/
def embedAll (call : Call) (chunks : List (Chunk ρ)) : Except Stop (Embedded ρ) := do
  if call.cancelled 0 then cancelledStatus
  else
    let (pending, batches) ← embedFrom call chunks.length 0 0 chunks
    if call.cancelled (2 * batches.length + 1) then cancelledStatus
    else if call.cancelled (2 * batches.length + 2) then cancelledStatus
    else .ok { status := {}, chunks := attach chunks pending, batches }

/-- What the batches of a call of `embed` share. -/
def callOf (embedder : ChunkEmbedder) (engine : EmbeddingEngine) (options : EmbeddingOptions)
    (cancelled : ℕ → Bool) : Call where
  engine := engine
  config := embedder.config
  identity := embedder.identity
  batchLimit := options.batchSize.getD embedder.batchSize
  contextualized := options.textMode = .contextualized
  cancelled := cancelled

/-- `embed`, none where it wraps a size or does not end. -/
def embed (embedder : ChunkEmbedder) (options : EmbeddingOptions) (cancelled : ℕ → Bool)
    (chunks : List (Chunk ρ)) : Option (Embedded ρ) :=
  let status := embedder.validate options
  if !status.ok ∨ !options.enabled then some { status, chunks }
  else
    match embedder.engine with
    | none => some { status, chunks }
    | some engine =>
      match embedAll (embedder.callOf engine options cancelled) chunks with
      | .ok embedded => some embedded
      | .error (.returned status) => some { status, chunks }
      | .error .wrapped | .error .endless => none

end ChunkEmbedder

end GRParse.Embedding
