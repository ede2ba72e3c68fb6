-- SUMMARY: Memories: reconciling a batch of proposals against the store, and forgetting.
import Supermemory.Storage.DocumentJobs

/-!
# Memories

Reconciliation folds over a batch of proposals. A proposal whose normalized content
is that of an active memory only adds a source to it. Any other proposal becomes a
new memory, whose version and root come from the first parent that resolves, and an
`updates` parent is retired. Nothing deletes a memory: forgetting only changes flags.
-/

namespace Storage

/-- Parent relation supplied to deterministic memory reconciliation. -/
structure MemoryParent where
  memoryId : String
  relation : String
  deriving DecidableEq

/-- Validated model proposal and embedding ready for reconciliation. -/
structure MemoryProposal where
  temporaryId : String
  content : String
  isInferred : Bool
  isStatic : Bool
  metadata : Object
  parents : List MemoryParent
  forgetAfter : Option String
  forgetReason : Option String
  vector : List F32
  deriving DecidableEq

/-- Canonical memory returned by reconciliation and profile queries. -/
structure MemoryRecord where
  id : String
  memory : String
  metadata : Object
  isInferred : Bool
  isStatic : Bool
  isLatest : Bool
  isForgotten : Bool
  rootMemoryId : Option String
  parentMemoryId : Option String
  version : Nat
  forgetAfter : Option String
  forgetReason : Option String
  createdAt : Time
  updatedAt : Time
  deriving DecidableEq

def readMemory (m : Memory) : MemoryRecord :=
  { m with memory := m.content }

def readMemoryById (db : Database) (id : String) : Except StorageError MemoryRecord :=
  match db.memories.find id with
  | none => .error .read
  | some memory => .ok (readMemory memory)

-- ---------------------------------------------------------------------------
-- Content and expiry
-- ---------------------------------------------------------------------------

/-- Lower-cased alphanumeric words joined by single blanks. -/
def normalizedMemory (env : Env) (memory : String) : String :=
  String.ofList (Text.join [' ']
    (((env.toLowercase memory.toList).splitOnP fun c => ! env.isAlphanumeric c).filter (· ≠ [])))

/-- `datetime(value) > CURRENT_TIMESTAMP`, which is not true of a text that is no date. -/
def isFuture (env : Env) (now : Time) (value : String) : Prop :=
  ∃ time ∈ env.datetime now value, now < time

instance (env : Env) (now : Time) (value : String) : Decidable (isFuture env now value) :=
  match h : env.datetime now value with
  | none => isFalse (by simp [isFuture, h])
  | some time => decidable_of_iff (now < time) (by simp [isFuture, h])

/-- `forget_after IS NULL OR datetime(forget_after) > CURRENT_TIMESTAMP`. -/
def Unexpired (env : Env) (now : Time) (m : Memory) : Prop :=
  ∀ value ∈ m.forgetAfter, isFuture env now value

instance (env : Env) (now : Time) (m : Memory) : Decidable (Unexpired env now m) :=
  match h : m.forgetAfter with
  | none => isTrue (by simp [Unexpired, h])
  | some value => decidable_of_iff (isFuture env now value) (by simp [Unexpired, h])

def validFutureDatetime (env : Env) (now : Time) (value : Option String) : Option String :=
  value.filter fun v => isFuture env now v

-- ---------------------------------------------------------------------------
-- Reconciliation
-- ---------------------------------------------------------------------------

structure ResolvedParent where
  id : String
  relation : String
  rootMemoryId : Option String
  version : Nat
  deriving DecidableEq

/-- The parents that exist in the organization and container, in the order of the proposal.
    A temporary identifier of the batch stands for the memory it was resolved to. -/
def resolveMemoryParents (db : Database) (orgId containerTag : String) (parents : List MemoryParent)
    (temporaryIds : List (String × String)) : List ResolvedParent :=
  parents.filterMap fun parent =>
    let id := (temporaryIds.lookup parent.memoryId).getD parent.memoryId
    match db.memories.find id with
    | none => none
    | some m =>
      if m.orgId = orgId ∧ m.containerTag = containerTag then
        some { id := m.id, relation := parent.relation, rootMemoryId := m.rootMemoryId, version := m.version }
      else none

/-- `ORDER BY version DESC, updated_at DESC, id`. -/
def newerMemory (a b : Memory) : Prop :=
  b.version < a.version ∨ a.version = b.version ∧
    (b.updatedAt < a.updatedAt ∨ a.updatedAt = b.updatedAt ∧ a.id ≤ b.id)

instance : DecidableRel newerMemory := fun _ _ => inferInstanceAs (Decidable (_ ∨ _))

/-- The first memory in query order of each normalized content. -/
def activeMemoryIdsByContent (env : Env) (db : Database) (orgId containerTag : String) :
    List (String × String) :=
  let rows := (db.memories.rows.filter fun m =>
    m.orgId = orgId ∧ m.containerTag = containerTag ∧ m.isLatest ∧ ¬ m.isForgotten).insertionSort
      newerMemory
  rows.foldl (fun memories m =>
    match memories.lookup (normalizedMemory env m.content) with
    | some _ => memories
    | none => memories ++ [(normalizedMemory env m.content, m.id)]) []

/-- `INSERT OR IGNORE INTO memory_sources`. -/
def addSource (db : Database) (memoryId documentId : String) : Database :=
  { db with memorySources := (db.memorySources.insert { memoryId, documentId }).getD db.memorySources }

/-- `INSERT OR IGNORE INTO memory_relations`, whose `CHECK` only admits three relations. -/
def addRelation (db : Database) (parentId childId relation : String) : Database :=
  if relation = "updates" ∨ relation = "extends" ∨ relation = "derives" then
    { db with
      memoryRelations :=
        (db.memoryRelations.insert { parentId, childId, relation }).getD db.memoryRelations }
  else db

/-- Retires the memory that a new one updates. -/
def retireMemory (now : Time) (db : Database) (id : String) : Database :=
  { db with
    memories := db.memories.update (fun m => m.id = id)
      (fun m => { m with isLatest := false, isStatic := false, updatedAt := now })
    memoryEmbeddings := db.memoryEmbeddings.update (fun e => e.memoryId = id)
      (fun e => { e with active := false }) }

/-- Relates a new memory to one of its parents. -/
def linkParent (now : Time) (childId : String) (db : Database) (parent : ResolvedParent) : Database :=
  let db := addRelation db parent.id childId parent.relation
  if parent.relation = "updates" then retireMemory now db parent.id else db

def insertMemoryEmbedding (db : Database) (memoryId modelId : String) (dimensions : Nat)
    (vector : List F32) : Except StorageError Database :=
  if dimensions = 0 then .error .write
  else
    match db.memoryEmbeddings.insert
        { memoryId, modelId, dimensions, vector := vectorBytes vector, active := true } with
    | none => .error .write
    | some memoryEmbeddings => .ok { db with memoryEmbeddings }

/-- What a call of `reconcile_memories_for` is about, apart from its proposals. -/
structure Batch where
  orgId : String
  documentId : String
  containerTag : String
  modelId : String
  dimensions : Nat
  deriving DecidableEq

/-- The variables of the reconciliation loop. The maps list later insertions first. -/
structure Reconciliation where
  db : Database
  temporaryIds : List (String × String)
  exactMemories : List (String × String)
  recordIds : List String

/-- The row of a new memory. -/
def newMemory (env : Env) (now : Time) (batch : Batch) (proposal : MemoryProposal)
    (parents : List ResolvedParent) (id : String) : Memory :=
  { id
    orgId := batch.orgId
    containerTag := batch.containerTag
    content := proposal.content
    metadata := proposal.metadata
    isInferred := proposal.isInferred || parents.any fun parent => parent.relation = "derives"
    isStatic := proposal.isStatic
    isLatest := true
    isForgotten := false
    rootMemoryId := parents.head?.map fun parent => parent.rootMemoryId.getD parent.id
    parentMemoryId := parents.head?.map (·.id)
    version := (parents.head?.map fun parent => parent.version + 1).getD 1
    forgetAfter := validFutureDatetime env now proposal.forgetAfter
    forgetReason := proposal.forgetReason
    createdAt := now
    updatedAt := now }

/-- One turn of the reconciliation loop. -/
def reconcileProposal (env : Env) (now : Time) (batch : Batch) (s : Reconciliation)
    (proposal : MemoryProposal) : Except StorageError Reconciliation :=
  let normalizedContent := normalizedMemory env proposal.content
  match s.exactMemories.lookup normalizedContent with
  | some existingId =>
    .ok { s with
      db := addSource s.db existingId batch.documentId
      temporaryIds := (proposal.temporaryId, existingId) :: s.temporaryIds
      recordIds := s.recordIds ++ [existingId] }
  | none =>
    let parents := resolveMemoryParents s.db batch.orgId batch.containerTag proposal.parents
      s.temporaryIds
    let id := "mem_" ++ env.generateId s.db.idsDrawn
    match s.db.memories.insert (newMemory env now batch proposal parents id),
        s.db.memorySources.insert { memoryId := id, documentId := batch.documentId } with
    | some memories, some memorySources =>
      let db := { s.db with memories, memorySources, idsDrawn := s.db.idsDrawn + 1 }
      match insertMemoryEmbedding (parents.foldl (linkParent now id) db) id batch.modelId
          batch.dimensions proposal.vector with
      | .error e => .error e
      | .ok db =>
        .ok
          { db
            temporaryIds := (proposal.temporaryId, id) :: s.temporaryIds
            exactMemories := (normalizedContent, id) :: s.exactMemories
            recordIds := s.recordIds ++ [id] }
    | _, _ => .error .write

def reconcileProposals (env : Env) (now : Time) (batch : Batch) :
    List MemoryProposal → Reconciliation → Except StorageError Reconciliation
  | [], s => .ok s
  | proposal :: rest, s =>
    match reconcileProposal env now batch s proposal with
    | .error e => .error e
    | .ok s => reconcileProposals env now batch rest s

/-- The checks made before the transaction, up to the first error. -/
def validateProposals (env : Env) (dimensions : Nat) : List MemoryProposal → Except StorageError Unit
  | [] => .ok ()
  | proposal :: rest =>
    match validateVector env proposal.vector dimensions with
    | .error e => .error e
    | .ok () =>
      if proposal.temporaryId = "" ∨ Text.trim proposal.content.toList = [] then
        .error .invalidMemoryProposal
      else validateProposals env dimensions rest

def readRecords (db : Database) : List String → Except StorageError (List MemoryRecord)
  | [] => .ok []
  | id :: rest =>
    match readMemoryById db id, readRecords db rest with
    | .ok record, .ok records => .ok (record :: records)
    | .error e, _ => .error e
    | _, .error e => .error e

/-- `id=?1 AND document_id=?2 AND revision=?3 AND status='extracting'`. -/
def IsExtracting (jobId documentId : String) (revision : Nat) (j : Job) : Prop :=
  j.id = jobId ∧ j.documentId = documentId ∧ j.revision = revision ∧ j.status = .extracting

instance : DecidablePred (IsExtracting jobId documentId revision) :=
  fun _ => inferInstanceAs (Decidable (_ ∧ _))

/-- Completes the memory job a reconciliation was made for. -/
def finishReconciliation (db : Database) (jobId documentId : String) (revision : Nat) :
    Except StorageError Database :=
  let jobs := db.jobs.count (IsExtracting jobId documentId revision)
  let documents := db.countDocument documentId revision
  let db := { db with
    jobs := db.jobs.update (IsExtracting jobId documentId revision) (fun j => { j with
      status := .done, extractionResult := none, lastErrorKind := none, lastError := none }) }
  if jobs ≠ 1 ∨ documents ≠ 1 then .error (.staleRevision documentId revision none)
  else .ok (db.setDocumentStatus documentId revision .done)

/-- Reconciles extracted memories, lineage, sources, and vectors in one transaction. -/
def reconcileMemoriesFor (env : Env) (now : Time) (batch : Batch) (expectedRevision : Option Nat)
    (completionJobId : Option String) (proposals : List MemoryProposal) (db : Database) :
    Except StorageError (List MemoryRecord × Database) :=
  match validateProposals env batch.dimensions proposals with
  | .error e => .error e
  | .ok () =>
    match (db.documents.find batch.documentId).filter (·.orgId = batch.orgId) with
    | none => .error (.unknownMemorySource batch.documentId)
    | some source =>
      if ∃ expected ∈ expectedRevision, expected ≠ source.revision then
        .error (.staleRevision batch.documentId (expectedRevision.getD 0) (some source.revision))
      else
        let start : Reconciliation :=
          { db
            temporaryIds := []
            exactMemories := activeMemoryIdsByContent env db batch.orgId batch.containerTag
            recordIds := [] }
        match reconcileProposals env now batch proposals start with
        | .error e => .error e
        | .ok s =>
          match readRecords s.db s.recordIds with
          | .error e => .error e
          | .ok records =>
            match completionJobId with
            | none => .ok (records, s.db)
            | some jobId =>
              match finishReconciliation s.db jobId batch.documentId source.revision with
              | .error e => .error e
              | .ok db => .ok (records, db)

-- ---------------------------------------------------------------------------
-- Forgetting
-- ---------------------------------------------------------------------------

/-- The memory a request to forget names, by identifier or by exact content. -/
def findForgettable (env : Env) (now : Time) (db : Database) (orgId : String)
    (id content : Option String) (containerTag : String) : Option Memory :=
  let candidates := db.memories.rows.filter fun m =>
    m.orgId = orgId ∧ m.containerTag = containerTag ∧ ¬ m.isForgotten ∧ Unexpired env now m
  match id, content with
  | some id, _ => candidates.find? fun m => m.id = id
  | none, some content => candidates.find? fun m => m.content = content
  | none, none => none

/-- Soft-forgets one active memory in an explicit organization. -/
def forgetMemoryFor (env : Env) (now : Time) (orgId : String) (id content : Option String)
    (containerTag : String) (reason : Option String) (db : Database) :
    Except StorageError (String × Database) :=
  match findForgettable env now db orgId id content containerTag with
  | none => .error .memoryNotFound
  | some memory =>
    .ok (memory.id, { db with
      memories := db.memories.update (fun m => m.id = memory.id) (fun m =>
        { m with
          isForgotten := true
          isLatest := false
          isStatic := false
          forgetAfter := some (env.timestamp now)
          forgetReason := some (reason.getD "user_requested")
          updatedAt := now })
      memoryEmbeddings := db.memoryEmbeddings.update (fun e => e.memoryId = memory.id)
        (fun e => { e with active := false }) })

end Storage
