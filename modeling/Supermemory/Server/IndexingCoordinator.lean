-- SUMMARY: One cohort of the indexing coordinator: its tasks, the writer, and the join loop that leaves on the first error.
import Supermemory.MemoryEngine.Chunking
import Supermemory.Storage.Discipline

/-!
# The indexing coordinator

`process_available` claims up to four jobs and runs `process` on each of them in a
task of its own. A task is described by the point it has reached: a write it sends, a
computation it awaits, or its result. The writer executes one write at a time, and takes
those that were sent in any order, which includes the order of its queue.

When a task returns an error, the join loop leaves and drops the join set. A task that
awaits a computation or a reply then goes no further. A write that was sent is still
executed, and a task between two awaits may still send its next write.
-/

namespace Server

open Storage

def preparationConcurrency : Nat := 4

def bgeDimensions : Nat := 768

def bgeModelId : String := "Xenova/bge-base-en-v1.5:q8:mean:normalized"

/-- The text of a chunking error. -/
def chunkingMessage : Chunking.ChunkingError → String
  | .tooSmall => "chunk size must be at least -1 characters"
  | .tooLarge => "chunk size must not exceed 28672 characters (embedding model limit is 8192 tokens)"

/-- Failure while claiming or completing queued document work. An error of the embedding executor
    is known by its text. -/
inductive WorkerError where
  | storage (error : StorageError)
  | chunking (error : Chunking.ChunkingError)
  | embeddingExecutor (message : String)
  deriving DecidableEq

/-- Which of its optional services the coordinator has. -/
structure Coordinator where
  embeddings : Bool
  provider : Bool

-- ---------------------------------------------------------------------------
-- Embeddings
-- ---------------------------------------------------------------------------

/-- A normalized embedding of the model. None is made without these checks. -/
structure EmbeddingVector (env : Env) where
  values : List F32
  dimensions : values.length = bgeDimensions
  finite : ∀ value ∈ values, isFinite value = true
  norm : env.hasUnitNorm values = true
  deriving DecidableEq

/-- The store accepts the vectors of the model. -/
theorem EmbeddingVector.valid {env : Env} (vector : EmbeddingVector env) :
    validateVector env vector.values bgeDimensions = .ok () := by
  have hfinite : ¬ vector.values.any fun value => ! isFinite value := by
    simpa using vector.finite
  unfold validateVector
  rw [if_neg (not_not.mpr vector.dimensions), if_neg hfinite, if_neg (by simp [vector.norm])]

/-- A text with its embedding. -/
structure EmbeddedText (env : Env) where
  text : String
  vector : EmbeddingVector env
  deriving DecidableEq

/-- The chunk that is published for an embedded text. -/
def EmbeddedText.chunk {env : Env} (embedded : EmbeddedText env) : EmbeddedChunk :=
  { content := embedded.text, vector := embedded.vector.values }

theorem validateChunks_embedded {env : Env} (embedded : List (EmbeddedText env)) :
    validateChunks env bgeDimensions (embedded.map (·.chunk)) = .ok () := by
  induction embedded with
  | nil => rfl
  | cons first rest ih =>
    have hfirst : validateVector env first.chunk.vector bgeDimensions = .ok () := first.vector.valid
    rw [List.map_cons, validateChunks, hfirst]
    exact ih

-- ---------------------------------------------------------------------------
-- Tasks
-- ---------------------------------------------------------------------------

/-- Where a task is in `process`. -/
inductive Point (env : Env) where
  | stageChunking
  | chunking
  | deleteEmpty
  | complete (chunks : List String)
  | stageEmbedding (chunks : List String)
  | embedding (chunks : List String)
  | stageIndexing (embedded : List (EmbeddedText env))
  | publish (embedded : List (EmbeddedText env))
  | fail (message : String) (error : WorkerError)
  | returned (result : Except WorkerError Unit)
  | aborted
  deriving DecidableEq

namespace Point

variable {env : Env}

/-- The write that a point sends. -/
def write (coordinator : Coordinator) (job : ClaimedJob) : Point env → Option Call
  | stageChunking => some (.markJobStage job .chunking)
  | deleteEmpty => some (.deleteEmptyDocument job)
  | complete chunks => some (.completeJob job chunks)
  | stageEmbedding _ => some (.markJobStage job .embedding)
  | stageIndexing _ => some (.markJobStage job .indexing)
  | publish embedded =>
    let embedded := embedded.map (·.chunk)
    if coordinator.provider then
      some (.completeEmbeddedJobWithMemoryExtraction job embedded bgeModelId bgeDimensions)
    else some (.completeEmbeddedJob job embedded bgeModelId bgeDimensions)
  | fail message _ => some (.failJob job message)
  | chunking | embedding _ | returned _ | aborted => none

/-- Where a task goes on when its write succeeded. -/
def next : Point env → Point env
  | stageChunking => chunking
  | deleteEmpty | complete _ | publish _ => returned (.ok ())
  | stageEmbedding chunks => embedding chunks
  | stageIndexing embedded => publish embedded
  | fail _ error => returned (.error error)
  | point => point

/-- Where a task goes on when the reply to its write arrives. -/
def reply (point : Point env) : Except StorageError Answer → Point env
  | .ok _ => point.next
  | .error error => returned (.error (.storage error))

def chunked (coordinator : Coordinator) : Except Chunking.ChunkingError (List String) → Point env
  | .error error => fail (chunkingMessage error) (.chunking error)
  | .ok chunks =>
    if chunks = [] then deleteEmpty
    else if coordinator.embeddings then stageEmbedding chunks
    else complete chunks

def embedded : Except String (List (EmbeddedText env)) → Point env
  | .error message => fail message (.embeddingExecutor message)
  | .ok embedded => stageIndexing embedded

end Point

/-- A task of the cohort. -/
structure Member (env : Env) where
  job : ClaimedJob
  point : Point env
  /-- The write of the point is on its way. -/
  sent : Bool
  deriving DecidableEq

-- ---------------------------------------------------------------------------
-- The cohort
-- ---------------------------------------------------------------------------

/-- Where `process_available` is. -/
inductive Phase where
  | claiming
  | joining
  | returned (result : Except WorkerError Bool)
  deriving DecidableEq

structure Cohort (env : Env) where
  session : Session
  phase : Phase
  members : List (Member env)
  deriving DecidableEq

def Cohort.db {env : Env} (s : Cohort env) : Database := s.session.store.db

/-- Replaces the task at a position. -/
def Cohort.setMember {env : Env} (s : Cohort env) (i : Nat) (m : Member env) : Cohort env :=
  { s with members := s.members.set i m }

/-- Executes a call. -/
def Cohort.execute {env : Env} (now : Time) (call : Call) (s : Cohort env) : Cohort env :=
  { s with session := s.session.after call (call.run env now s.db) }

inductive CohortEvent (env : Env) where
  /-- `process_available` claims a job. -/
  | claim
  /-- A task sends the write of its point. -/
  | send (i : Nat)
  /-- The writer executes the write of a task. -/
  | write (i : Nat)
  | chunked (i : Nat) (outcome : Except Chunking.ChunkingError (List String))
  | embedded (i : Nat) (outcome : Except String (List (EmbeddedText env)))
  /-- `join_next` returns the error of a task. -/
  | joinError (i : Nat)
  /-- `join_next` has returned every task, and none with an error. -/
  | joinAll
  /-- A call that another part of the server makes. -/
  | elsewhere (call : Call)

/-- Another part of the server neither claims documents nor has their handles, and does not open
    the store again. -/
def Call.Elsewhere (s : Session) (call : Call) : Prop :=
  call.Live s ∧ call.job = none ∧ call ≠ .claimJob ∧ call ≠ .openStorage

instance (s : Session) (call : Call) : Decidable (Call.Elsewhere s call) :=
  inferInstanceAs (Decidable (_ ∧ _))

/-- A claim adds a task. When there is no job left, or the cohort is full, the tasks are spawned. -/
def Cohort.claim {env : Env} (now : Time) (s : Cohort env) : Cohort env :=
  match (Call.claimJob.run env now s.db).1 with
  | .ok (.claimed (some job)) =>
    let members := s.members ++ [{ job, point := .stageChunking, sent := false }]
    { (s.execute now .claimJob) with
      members
      phase := if members.length = preparationConcurrency then .joining else .claiming }
  | _ =>
    { (s.execute now .claimJob) with
      phase := if s.members = [] then .returned (.ok false) else .joining }

/-- The writer executes the write of a task, which goes on unless the join set was dropped. -/
def Cohort.write {env : Env} (now : Time) (i : Nat) (m : Member env) (call : Call) (s : Cohort env) :
    Cohort env :=
  let reply := (call.run env now s.db).1
  let point := if s.phase = .joining then m.point.reply reply else .aborted
  (s.execute now call).setMember i { m with point, sent := false }

/-- One step of the cohort, its writer, or the rest of the server. -/
def Cohort.step {env : Env} (coordinator : Coordinator) (s : Cohort env) (now : Time) :
    CohortEvent env → Option (Cohort env)
  | .claim => if s.phase = .claiming then some (s.claim now) else none
  | .send i => do
    let m ← s.members[i]?
    if s.phase ≠ .claiming ∧ m.sent = false ∧ (m.point.write coordinator m.job).isSome then
      some (s.setMember i { m with sent := true })
    else none
  | .write i => do
    let m ← s.members[i]?
    let call ← m.point.write coordinator m.job
    if m.sent then some (s.write now i m call) else none
  | .chunked i outcome => do
    let m ← s.members[i]?
    if s.phase = .joining ∧ m.point = .chunking then
      some (s.setMember i { m with point := .chunked coordinator outcome })
    else none
  | .embedded i outcome => do
    let m ← s.members[i]?
    match s.phase, m.point with
    | .joining, .embedding _ => some (s.setMember i { m with point := .embedded outcome })
    | _, _ => none
  | .joinError i => do
    let m ← s.members[i]?
    match s.phase, m.point with
    | .joining, .returned (.error error) => some { s with phase := .returned (.error error) }
    | _, _ => none
  | .joinAll =>
    if s.phase = .joining ∧ ∀ m ∈ s.members, m.point = .returned (.ok ()) then
      some { s with phase := .returned (.ok true) }
    else none
  | .elsewhere call => if Call.Elsewhere s.session call then some (s.execute now call) else none

/-- `process_available`, from any state that the store can be in. -/
def cohorts (env : Env) (coordinator : Coordinator) : Machine (Cohort env) (Time × CohortEvent env) where
  init s := (sessions env).Reachable s.session ∧ s.phase = .claiming ∧ s.members = []
  step s event := s.step coordinator event.1 event.2

end Server
