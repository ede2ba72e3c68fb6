-- SUMMARY: The store as a machine: every call is one transaction, and claimed handles are kept forever.
import Supermemory.Library.Machine
import Supermemory.Storage.Connection
import Supermemory.Storage.MemoryJobs

/-!
# The store as a machine

A state is the database together with every handle that was ever returned and every
publication that was ever made. A call with a handle is enabled when the handle was
returned earlier; nothing takes a handle away, so it may be used late, repeatedly,
or after it was superseded.
-/

namespace Storage

/-- The operations of the store. -/
inductive Call where
  | upsertDocument (orgId : String) (input : UpsertDocument)
  | claimJob
  | markJobStage (job : ClaimedJob) (stage : DocumentState)
  | completeJob (job : ClaimedJob) (chunks : List String)
  | completeEmbeddedJob (job : ClaimedJob) (chunks : List EmbeddedChunk) (modelId : String)
      (dimensions : Nat)
  | completeEmbeddedJobWithMemoryExtraction (job : ClaimedJob) (chunks : List EmbeddedChunk)
      (modelId : String) (dimensions : Nat)
  | failJob (job : ClaimedJob) (error : String)
  | deleteEmptyDocument (job : ClaimedJob)
  | deleteDocument (orgId identifier : String)
  | claimMemoryJob
  | cacheMemoryExtraction (job : ClaimedMemoryJob) (result : String)
  | completeMemoryJob (job : ClaimedMemoryJob)
  | retryMemoryJob (job : ClaimedMemoryJob) (errorKind error : String) (retryDelay : Option Nat)
  | reconcileMemories (batch : Batch) (expectedRevision : Option Nat)
      (completion : Option ClaimedMemoryJob) (proposals : List MemoryProposal)
  | forgetMemory (orgId : String) (id content : Option String) (containerTag : String)
      (reason : Option String)
  | openStorage
  deriving DecidableEq

/-- What a call returns. -/
inductive Answer where
  | upserted (result : UpsertResult)
  | claimed (job : Option ClaimedJob)
  | claimedMemory (job : Option ClaimedMemoryJob)
  | deleted (found : Bool)
  | reconciled (records : List MemoryRecord)
  | forgotten (id : String)
  | opened (orgId : String)
  | unit
  deriving DecidableEq

/-- Commits a transaction, or rolls it back. -/
def commit (db : Database) (r : Except StorageError (Answer × Database)) :
    Except StorageError Answer × Database :=
  match r with
  | .ok (answer, db') => (.ok answer, db')
  | .error e => (.error e, db)

/-- What a call returns and the database it leaves. -/
def Call.run (env : Env) (now : Time) (call : Call) (db : Database) :
    Except StorageError Answer × Database :=
  match call with
  | .upsertDocument orgId input =>
    commit db ((upsertDocumentFor env now orgId input db).map fun (r, db) => (.upserted r, db))
  | .claimJob =>
    let (job, db) := Storage.claimJob now db
    (.ok (.claimed job), db)
  | .markJobStage job stage => commit db ((Storage.markJobStage job stage db).map (.unit, ·))
  | .completeJob job chunks => commit db ((Storage.completeJob env now job chunks db).map (.unit, ·))
  | .completeEmbeddedJob job chunks modelId dimensions =>
    commit db ((Storage.completeEmbeddedJob env now job chunks modelId dimensions db).map (.unit, ·))
  | .completeEmbeddedJobWithMemoryExtraction job chunks modelId dimensions =>
    commit db ((Storage.completeEmbeddedJobWithMemoryExtraction env now job chunks modelId dimensions
      db).map (.unit, ·))
  | .failJob job error => (.ok .unit, Storage.failJob job error db)
  | .deleteEmptyDocument job => (.ok .unit, Storage.deleteEmptyDocument job db)
  | .deleteDocument orgId identifier =>
    let (found, db) := deleteDocumentFor orgId identifier db
    (.ok (.deleted found), db)
  | .claimMemoryJob =>
    commit db ((Storage.claimMemoryJob now db).map fun (job, db) => (.claimedMemory job, db))
  | .cacheMemoryExtraction job result =>
    let (r, db) := Storage.cacheMemoryExtraction job result db
    (r.map fun _ => .unit, db)
  | .completeMemoryJob job => commit db ((Storage.completeMemoryJob job db).map (.unit, ·))
  | .retryMemoryJob job errorKind error retryDelay =>
    commit db ((Storage.retryMemoryJob now job errorKind error retryDelay db).map (.unit, ·))
  | .reconcileMemories batch expectedRevision completion proposals =>
    commit db ((reconcileMemoriesFor env now batch expectedRevision (completion.map (·.id)) proposals
      db).map fun (records, db) => (.reconciled records, db))
  | .forgetMemory orgId id content containerTag reason =>
    commit db ((forgetMemoryFor env now orgId id content containerTag reason db).map
      fun (id, db) => (.forgotten id, db))
  | .openStorage =>
    commit db ((Storage.openStorage env now db).map fun (orgId, db) => (.opened orgId, db))

/-- The document handle a call takes. -/
def Call.job : Call → Option ClaimedJob
  | .markJobStage job _ | .completeJob job _ | .completeEmbeddedJob job _ _ _
  | .completeEmbeddedJobWithMemoryExtraction job _ _ _ | .failJob job _
  | .deleteEmptyDocument job => some job
  | _ => none

/-- The memory handle a call takes. -/
def Call.memoryJob : Call → Option ClaimedMemoryJob
  | .cacheMemoryExtraction job _ | .completeMemoryJob job | .retryMemoryJob job _ _ _ => some job
  | .reconcileMemories _ _ completion _ => completion
  | _ => none

/-- The chunks a call publishes, and the handle it publishes them with. -/
def Call.published : Call → Option (ClaimedJob × List String)
  | .completeJob job chunks => some (job, chunks)
  | .completeEmbeddedJob job chunks _ _ | .completeEmbeddedJobWithMemoryExtraction job chunks _ _ =>
    some (job, chunks.map (·.content))
  | _ => none

/-- The document handle an answer carries. -/
def Answer.job : Answer → Option ClaimedJob
  | .claimed job => job
  | _ => none

/-- The memory handle an answer carries. -/
def Answer.memoryJob : Answer → Option ClaimedMemoryJob
  | .claimedMemory job => job
  | _ => none

/-- A publication that committed: its handle, its chunks, and the rows it left for its document. -/
structure Publication where
  job : ClaimedJob
  chunks : List String
  rows : List Chunk
  deriving DecidableEq

structure System where
  db : Database
  /-- Every handle `claim_job` ever returned. -/
  jobs : List ClaimedJob
  /-- Every handle `claim_memory_job` ever returned. -/
  memoryJobs : List ClaimedMemoryJob
  /-- Every publication that ever committed. -/
  publications : List Publication
  deriving DecidableEq

/-- The handle was returned by an earlier call. -/
def Call.Issued (s : System) (call : Call) : Prop :=
  (∀ job ∈ call.job, job ∈ s.jobs) ∧ (∀ job ∈ call.memoryJob, job ∈ s.memoryJobs)

instance (s : System) (call : Call) : Decidable (call.Issued s) := inferInstanceAs (Decidable (_ ∧ _))

/-- Records what a call returned. -/
def System.after (s : System) (call : Call) : Except StorageError Answer × Database → System
  | (.error _, db) => { s with db }
  | (.ok answer, db) =>
    { db
      jobs := match answer with
        | .claimed (some job) => job :: s.jobs
        | _ => s.jobs
      memoryJobs := match answer with
        | .claimedMemory (some job) => job :: s.memoryJobs
        | _ => s.memoryJobs
      publications := match call.published with
        | some (job, chunks) => ⟨job, chunks, chunkRows db job.documentId⟩ :: s.publications
        | none => s.publications }

@[simp] theorem System.after_db (s : System) (call : Call) (r : Except StorageError Answer × Database) :
    (s.after call r).db = r.2 := by
  obtain ⟨_ | _, _⟩ := r <;> rfl

theorem System.after_nothing {s : System} {call : Call} {answer : Answer} (hjob : answer.job = none)
    (hmemoryJob : answer.memoryJob = none) (hpublished : call.published = none) :
    s.after call (.ok answer, s.db) = s := by
  simp only [System.after, hpublished]
  cases answer with
  | claimed job =>
    obtain rfl : job = none := hjob
    rfl
  | claimedMemory job =>
    obtain rfl : job = none := hmemoryJob
    rfl
  | _ => rfl

/-- Handles are never forgotten. -/
theorem System.mem_after_jobs {s : System} {call : Call} {r : Except StorageError Answer × Database}
    {k : ClaimedJob} (h : k ∈ s.jobs) : k ∈ (s.after call r).jobs := by
  obtain ⟨_ | answer, _⟩ := r
  · exact h
  · simp only [System.after]
    split
    · exact List.mem_cons_of_mem _ h
    · exact h

theorem System.mem_after_memoryJobs {s : System} {call : Call}
    {r : Except StorageError Answer × Database} {m : ClaimedMemoryJob} (h : m ∈ s.memoryJobs) :
    m ∈ (s.after call r).memoryJobs := by
  obtain ⟨_ | answer, _⟩ := r
  · exact h
  · simp only [System.after]
    split
    · exact List.mem_cons_of_mem _ h
    · exact h

/-- An empty store, with some organizations in it. -/
def System.Empty (s : System) : Prop :=
  ∃ organizations, s = ⟨⟨organizations, ∅, ∅, ∅, ∅, ∅, ∅, ∅, ∅, 0⟩, [], [], []⟩

/-- The store under calls at any time, in any order. -/
def machine (env : Env) : Machine System (Time × Call) where
  init := System.Empty
  step s event :=
    if event.2.Issued s then some (s.after event.2 (event.2.run env event.1 s.db)) else none

theorem machine_step {env : Env} {s s' : System} {event : Time × Call} :
    (machine env).step s event = some s' ↔
      event.2.Issued s ∧ s' = s.after event.2 (event.2.run env event.1 s.db) := by
  simp only [machine]
  split <;> simp_all [eq_comm]

/-! ## Concrete runs -/

/-- An environment to evaluate runs in. Identifiers are unary, a text is its own hash, the only
    unit vector is `[1.0]`, the only date is the first instant of 2024, and that is the time. -/
def unaryEnv : Env where
  generateId n := String.ofList (List.replicate n 'x')
  generateId_injective m n h := by
    simpa using congrArg List.length (String.ofList_injective h)
  contentHash := id
  toLowercase := List.map Char.toLower
  isAlphanumeric := Char.isAlphanum
  hasUnitNorm vector := vector = [0x3f800000]
  datetime _ value := if value = "2024-01-01T00:00:00Z" then some 63871286400 else none
  timestamp _ := "2024-01-01 00:00:00"

/-- The store before it is opened for the first time. -/
def emptySystem : System := ⟨⟨∅, ∅, ∅, ∅, ∅, ∅, ∅, ∅, ∅, 0⟩, [], [], []⟩

/-- The state after a list of calls, all made at the first instant of 2024. -/
def afterCalls (calls : List Call) : Option System :=
  (machine unaryEnv).replay emptySystem (calls.map (63871286400, ·))

theorem afterCalls_reachable {calls : List Call} {s : System} (h : afterCalls calls = some s) :
    (machine unaryEnv).Reachable s :=
  have hempty : (machine unaryEnv).Reachable emptySystem := .start ⟨∅, rfl⟩
  hempty.replay h

/-- A request to store a text under a custom identifier. -/
def upsertOf (content : String) : UpsertDocument :=
  { content
    customId := some "note"
    containerTags := ["tag"]
    entityContext := none
    metadata := []
    taskType := "memory"
    filepath := none
    filterByMetadata := []
    dreaming := "instant" }

end Storage
