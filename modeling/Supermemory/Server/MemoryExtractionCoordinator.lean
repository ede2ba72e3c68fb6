-- SUMMARY: One run of the memory-extraction worker: the calls it makes in turn, and the exits it takes when they fail.
import Supermemory.Server.IndexingCoordinator
import Supermemory.Storage.MemoryRows

/-!
# The memory-extraction coordinator

`process` takes a claimed memory job through extraction, embedding and reconciliation. A
run of it is described by the point it has reached: a write it makes, or an answer that
it waits for. The writer executes a write, or it fails without one. Between two steps of
the run, any other call may be executed on the store, by this process or by another one.
-/

namespace Server

open Storage

-- ---------------------------------------------------------------------------
-- Candidates
-- ---------------------------------------------------------------------------

/-- Valid relation between an extracted memory and an existing memory. -/
inductive RelationKind where
  | updates
  | «extends»
  | derives
  deriving DecidableEq

def RelationKind.asStr : RelationKind → String
  | updates => "updates"
  | «extends» => "extends"
  | derives => "derives"

/-- Relation proposed by the extraction model. -/
structure ParentRelation where
  memoryId : String
  relation : RelationKind
  deriving DecidableEq

/-- Explicit temporal metadata attached to a memory. -/
structure TemporalContext where
  documentDate : Option String
  eventDate : Option (List String)
  deriving DecidableEq

/-- `Option<T>`, of which `None` serializes to `null`. -/
def optionalValue {α : Type} (toValue : α → Value) (value : Option α) : Value := (value.map toValue).getD .null

def stringsValue (strings : List String) : Value := .array (strings.map .string)

def TemporalContext.toValue (temporal : TemporalContext) : Value :=
  .object
    [("documentDate", optionalValue .string temporal.documentDate),
      ("eventDate", optionalValue stringsValue temporal.eventDate)]

/-- One validated memory proposal. -/
structure MemoryCandidate where
  tmpId : String
  memory : String
  isInferred : Bool
  addToStaticProfile : Bool
  buckets : List String
  parentRelations : List ParentRelation
  temporalContext : Option TemporalContext
  forgetAfter : Option String
  forgetReason : Option String
  deriving DecidableEq

def MemoryCandidate.metadata (candidate : MemoryCandidate) : Object :=
  let metadata := Object.insert [] "buckets" (stringsValue candidate.buckets)
  match candidate.temporalContext with
  | none => metadata
  | some temporal => Object.insert metadata "temporalContext" temporal.toValue

variable {env : Env}

/-- The proposal that is made of a candidate and its vector. -/
def MemoryCandidate.proposal (candidate : MemoryCandidate) (vector : EmbeddingVector env) : MemoryProposal :=
  { temporaryId := candidate.tmpId
    content := candidate.memory
    isInferred := candidate.isInferred
    isStatic := candidate.addToStaticProfile
    metadata := candidate.metadata
    parents := candidate.parentRelations.map fun parent =>
      { memoryId := parent.memoryId, relation := parent.relation.asStr }
    forgetAfter := candidate.forgetAfter
    forgetReason := candidate.forgetReason
    vector := vector.values }

-- ---------------------------------------------------------------------------
-- Failures
-- ---------------------------------------------------------------------------

/-- Provider failures, as they are classified for retry scheduling. -/
inductive ExtractionFailure where
  | rateLimited
  | transport
  | invalidOutput
  | authentication
  | configuration
  | provider
  deriving DecidableEq

/-- The delay of a retry in seconds. -/
def retryDelay (failure : ExtractionFailure) (attempt : Nat) : Option Nat :=
  match failure with
  | .authentication | .configuration => none
  | .invalidOutput => if 2 ≤ attempt then none else some 1
  | .rateLimited | .transport | .provider => some (2 ^ min attempt 6)

def failureName : ExtractionFailure → String
  | .rateLimited => "rate_limited"
  | .transport => "transport"
  | .invalidOutput => "invalid_output"
  | .authentication => "authentication"
  | .configuration => "configuration"
  | .provider => "provider"

/-- The writer or a reader has stopped, or SQLite fails. Nothing is written then. -/
inductive Outage where
  | stopped
  | sqlite (fatal : Bool) (message : String)
  deriving DecidableEq

/-- The errors of the worker that a run of `process` returns. An error of the provider and of the
    embedding executor is known by its text. -/
inductive ExtractionError where
  | storageUnavailable
  | storage (error : StorageError)
  | sqlite (fatal : Bool) (message : String)
  | embeddingExecutor (message : String)
  | provider (failure : ExtractionFailure) (message : String)
  | cachedExtraction (message : String)
  deriving DecidableEq

/-- What the store refuses by itself is not fatal. -/
def ExtractionError.isFatal : ExtractionError → Bool
  | storageUnavailable => true
  | sqlite fatal _ => fatal
  | storage _ | embeddingExecutor _ | provider _ _ | cachedExtraction _ => false

def Outage.error : Outage → ExtractionError
  | stopped => .storageUnavailable
  | sqlite fatal message => .sqlite fatal message

/-- The serialization of candidates, which never fails, and the text of the errors of the store. -/
structure Formats where
  toString : List MemoryCandidate → String
  fromStr : String → Except String (List MemoryCandidate)
  describe : StorageError → String

def ExtractionError.text (formats : Formats) : ExtractionError → String
  | storage error => "document worker storage operation failed: " ++ formats.describe error
  | sqlite _ message => "document worker storage operation failed: " ++ message
  | embeddingExecutor message => "embedding executor failed: " ++ message
  | provider _ message => "memory extraction failed: " ++ message
  | storageUnavailable => "storage lock is unavailable after a previous operation failed"
  | cachedExtraction message => "cached memory extraction is invalid: " ++ message

-- ---------------------------------------------------------------------------
-- The run of a job
-- ---------------------------------------------------------------------------

/-- Where a run of `process` is. The memories that it reads as context are only passed on to the
    provider. -/
inductive Stage (env : Env) where
  | start
  | reading
  | extracting
  | caching (candidates : List MemoryCandidate)
  | embedding (candidates : List MemoryCandidate)
  | reconciling (candidates : List MemoryCandidate) (vectors : List (EmbeddingVector env))
  | completing
  | retrying (kind : String) (delay : Option Nat) (message : String) (error : ExtractionError)
  | returned (result : Except ExtractionError Unit)
  deriving DecidableEq

namespace Stage

/-- `process` with the result of `extract`. -/
def extracted : List MemoryCandidate → Stage env
  | [] => completing
  | candidates => embedding candidates

/-- The beginning of `extract`: a result that an earlier attempt has cached is used again. -/
def begun (formats : Formats) (job : ClaimedMemoryJob) : Stage env :=
  match job.extractionResult with
  | none => reading
  | some cached =>
    match formats.fromStr cached with
    | .error message => returned (.error (.cachedExtraction message))
    | .ok candidates => extracted candidates

def read : Except Outage Unit → Stage env
  | .error outage => returned (.error outage.error)
  | .ok () => extracting

/-- The answer of the provider. A failure is scheduled for another attempt. -/
def provided (job : ClaimedMemoryJob) :
    Except (ExtractionFailure × String) (List MemoryCandidate) → Stage env
  | .error (failure, message) =>
    retrying (failureName failure) (retryDelay failure job.attempts) message (.provider failure message)
  | .ok candidates => caching candidates

def embedded (candidates : List MemoryCandidate) :
    Except String (List (EmbeddingVector env)) → Stage env
  | .error message => retrying "embedding" (some 1) message (.embeddingExecutor message)
  | .ok vectors => reconciling candidates vectors

/-- The write that a stage makes. -/
def write (formats : Formats) (job : ClaimedMemoryJob) : Stage env → Option Call
  | caching candidates => some (.cacheMemoryExtraction job (formats.toString candidates))
  | reconciling candidates vectors =>
    some (.reconcileMemories
      { orgId := job.organizationId, documentId := job.documentId, containerTag := job.containerTag,
        modelId := bgeModelId, dimensions := bgeDimensions }
      (some job.revision) (some job) (List.zipWith MemoryCandidate.proposal candidates vectors))
  | completing => some (.completeMemoryJob job)
  | retrying kind delay message _ => some (.retryMemoryJob job kind message delay)
  | start | reading | extracting | embedding _ | returned _ => none

/-- Where a run goes on with the reply to its write. -/
def replied (formats : Formats) : Stage env → Except ExtractionError Answer → Stage env
  | caching candidates, .ok _ => extracted candidates
  | reconciling _ _, .ok _ => returned (.ok ())
  | reconciling _ _, .error (.storage (.staleRevision _ _ _)) => completing
  | reconciling _ _, .error error =>
    if error.isFatal then returned (.error error)
    else retrying "reconciliation" (some 1) (error.text formats) error
  | completing, .ok _ => returned (.ok ())
  | retrying _ _ _ error, .ok _ => returned (.error error)
  | caching _, .error error | completing, .error error | retrying _ _ _ _, .error error =>
    returned (.error error)
  | stage, _ => stage

/-- The write is one of those that release the job. -/
def Releases : Stage env → Prop
  | completing | retrying _ _ _ _ => True
  | _ => False

instance : DecidablePred (@Releases env) := fun stage => by
  cases stage <;> unfold Releases <;> infer_instance

end Stage

/-- A run of `process`, with the store. -/
structure Extraction (env : Env) where
  store : System
  job : ClaimedMemoryJob
  stage : Stage env
  /-- A retry or a completion that the run attempted has failed. -/
  failed : Bool
  deriving DecidableEq

inductive ExtractionEvent (env : Env) where
  | begin
  | read (outcome : Except Outage Unit)
  | extract (outcome : Except (ExtractionFailure × String) (List MemoryCandidate))
  | embed (outcome : Except String (List (EmbeddingVector env)))
  /-- The writer executes the write of the run, or it fails. -/
  | write (outage : Option Outage)
  /-- A call that is not made by this run. -/
  | elsewhere (call : Call)

namespace Extraction

/-- The reply to a write of the run, and the store after it. -/
def reply (now : Time) (call : Call) (s : Extraction env) :
    Option Outage → Except ExtractionError Answer × System
  | some outage => (.error outage.error, s.store)
  | none =>
    let r := call.run env now s.store.db
    (r.1.mapError .storage, s.store.after call r)

/-- One step of the run, or of the rest of the world. -/
def step (formats : Formats) (s : Extraction env) (now : Time) : ExtractionEvent env → Option (Extraction env)
  | .begin => if s.stage = .start then some { s with stage := .begun formats s.job } else none
  | .read outcome => if s.stage = .reading then some { s with stage := .read outcome } else none
  | .extract outcome =>
    if s.stage = .extracting then some { s with stage := .provided s.job outcome } else none
  | .embed outcome =>
    match s.stage with
    | .embedding candidates => some { s with stage := .embedded candidates outcome }
    | _ => none
  | .write outage => do
    let call ← s.stage.write formats s.job
    let (reply, store) := s.reply now call outage
    some { s with
      store
      stage := s.stage.replied formats reply
      failed := s.failed || (decide s.stage.Releases && reply matches .error _) }
  | .elsewhere call =>
    match s.stage with
    | .returned _ => none
    | _ =>
      if call.Issued s.store then some { s with store := s.store.after call (call.run env now s.store.db) }
      else none

end Extraction

/-- The runs of `process` on a job that was claimed from a store in any state. -/
def extractions (env : Env) (formats : Formats) : Machine (Extraction env) (Time × ExtractionEvent env) where
  init s := (machine env).Reachable s.store ∧ s.job ∈ s.store.memoryJobs ∧ s.stage = .start ∧ s.failed = false
  step s event := s.step formats event.1 event.2

end Server
