-- SUMMARY: Document jobs: claiming, stages, publication of chunks, failure, and empty documents.
import Supermemory.Storage.Documents

/-!
# Document jobs

A claimed job is a handle on a row of the job table. Each operation that takes a
handle is one transaction, and each has its own guards on the revision of the
document and on the status of the row.
-/

namespace Storage

/-- A claimed document job whose processing happens outside the database lock. -/
structure ClaimedJob where
  id : String
  documentId : String
  content : String
  revision : Nat
  deriving DecidableEq

/-- A chunk and its normalized embedding ready for atomic publication. -/
structure EmbeddedChunk where
  content : String
  vector : List F32
  deriving DecidableEq

/-- The queued jobs that may be claimed, in the order of `jobs.rowid`. -/
def availableJobs (db : Database) (now : Time) (kind : JobKind) : List Job :=
  db.jobs.rows.filter fun j =>
    j.kind = kind ∧ j.status = .queued ∧ some j.revision = db.documentRevision j.documentId ∧
      j.availableAt ≤ now

/-- The oldest available job with its document. -/
def nextJob (db : Database) (now : Time) (kind : JobKind) : Option (Job × Document) :=
  match (availableJobs db now kind).argmin Job.createdAt with
  | none => none
  | some job => (db.documents.find job.documentId).map fun document => (job, document)

/-- Sets the status of a queued job to `extracting` and counts the attempt. -/
def startJob (db : Database) (id : String) (revision : Nat) : Database :=
  { db with
    jobs := db.jobs.update (fun j => j.id = id ∧ j.revision = revision ∧ j.status = .queued)
      (fun j => { j with status := .extracting, attempts := j.attempts + 1 }) }

/-- Atomically claims the oldest available document job. -/
def claimJob (now : Time) (db : Database) : Option ClaimedJob × Database :=
  match nextJob db now .document with
  | none => (none, db)
  | some (job, document) =>
    let claimed : ClaimedJob :=
      { id := job.id
        documentId := document.id
        content := document.content
        revision := job.revision }
    (some claimed, (startJob db claimed.id claimed.revision).setDocumentStatus claimed.documentId
      claimed.revision .extracting)

-- ---------------------------------------------------------------------------
-- Publication
-- ---------------------------------------------------------------------------

def deleteChunks (db : Database) (documentId : String) : Database :=
  { db with
    chunks := db.chunks.delete fun c => c.documentId = documentId
    chunkEmbeddings := db.chunkEmbeddings.delete fun e =>
      ∃ c ∈ db.chunks.rows, c.id = e.chunkId ∧ c.documentId = documentId }

/-- `INSERT INTO document_chunks`: the row takes the next free `rowid`. -/
def insertChunk (db : Database) (documentId : String) (ordinal : Nat) (content stableId : String) :
    Except StorageError (Nat × Database) :=
  let id := (db.chunks.rows.map Chunk.id).foldr max 0 + 1
  if ∃ c ∈ db.chunks.rows,
      (c.documentId = documentId ∧ c.ordinal = ordinal) ∨ c.stableId = stableId then .error .write
  else
    match db.chunks.insert { id, documentId, ordinal, content, stableId } with
    | none => .error .write
    | some chunks => .ok (id, { db with chunks })

def insertChunkEmbedding (db : Database) (chunkId : Nat) (modelId : String) (dimensions : Nat)
    (vector : List F32) : Except StorageError Database :=
  if dimensions = 0 then .error .write
  else
    match db.chunkEmbeddings.insert
        { chunkId, modelId, dimensions, vector := vectorBytes vector } with
    | none => .error .write
    | some chunkEmbeddings => .ok { db with chunkEmbeddings }

/-- The chunk rows stored for a document. -/
def chunkRows (db : Database) (documentId : String) : List Chunk :=
  db.chunks.rows.filter fun c => c.documentId = documentId

/-- The chunks of a document before publication: position and content to stable identifier. -/
def existingChunks (db : Database) (documentId : String) : List ((Nat × String) × String) :=
  (chunkRows db documentId).map fun c => ((c.ordinal, c.content), c.stableId)

/-- Inserts one chunk, and its vector when the publication is an embedded one. -/
def insertEmbeddedChunk (documentId : String) (embedding : Option (String × Nat)) (ordinal : Nat)
    (chunk : EmbeddedChunk) (stableId : String) (db : Database) : Except StorageError Database :=
  match insertChunk db documentId ordinal chunk.content stableId with
  | .error e => .error e
  | .ok (chunkId, db) =>
    match embedding with
    | none => .ok db
    | some (modelId, dimensions) => insertChunkEmbedding db chunkId modelId dimensions chunk.vector

/-- Inserts the chunks from position `ordinal` on. A chunk that was there before keeps its
    stable identifier, any other gets a new one. -/
def insertChunks (env : Env) (documentId : String) (embedding : Option (String × Nat))
    (existing : List ((Nat × String) × String)) :
    Nat → List EmbeddedChunk → Database → Except StorageError Database
  | _, [], db => .ok db
  | ordinal, chunk :: rest, db =>
    let inserted :=
      match existing.lookup (ordinal, chunk.content) with
      | some stableId => insertEmbeddedChunk documentId embedding ordinal chunk stableId db
      | none =>
        insertEmbeddedChunk documentId embedding ordinal chunk (env.generateId db.idsDrawn)
          { db with idsDrawn := db.idsDrawn + 1 }
    match inserted with
    | .error e => .error e
    | .ok db => insertChunks env documentId embedding existing (ordinal + 1) rest db

/-- Sets a claimed job to `done`. -/
def finishJob (db : Database) (id : String) (revision : Nat) : Database :=
  { db with
    jobs := db.jobs.update (fun j => j.id = id ∧ j.revision = revision ∧ j.status.IsClaimed)
      (fun j => { j with status := .done, lastError := none }) }

/-- Replaces a document's searchable chunks and completes its claimed job atomically. The
    number of job rows that complete is not looked at. -/
def publishJob (env : Env) (now : Time) (job : ClaimedJob) (chunks : List EmbeddedChunk)
    (embedding : Option (String × Nat)) (scheduleMemoryExtraction : Bool) (db : Database) :
    Except StorageError Database :=
  let currentRevision := db.documentRevision job.documentId
  if currentRevision ≠ some job.revision then
    .error (.staleRevision job.documentId job.revision currentRevision)
  else
    let existing := existingChunks db job.documentId
    match insertChunks env job.documentId embedding existing 0 chunks
        (deleteChunks db job.documentId) with
    | .error e => .error e
    | .ok db =>
      let db := finishJob db job.id job.revision
      if scheduleMemoryExtraction then
        match db.insertJob env now job.documentId .memory job.revision with
        | .error e => .error e
        | .ok db => .ok (db.setDocumentStatus job.documentId job.revision .indexing)
      else .ok (db.setDocumentStatus job.documentId job.revision .done)

def completeJob (env : Env) (now : Time) (job : ClaimedJob) (chunks : List String) (db : Database) :
    Except StorageError Database :=
  publishJob env now job (chunks.map fun content => { content, vector := [] }) none false db

/-- `validate_vector` on every chunk, up to the first error. -/
def validateChunks (env : Env) (dimensions : Nat) : List EmbeddedChunk → Except StorageError Unit
  | [] => .ok ()
  | chunk :: rest =>
    match validateVector env chunk.vector dimensions with
    | .error e => .error e
    | .ok () => validateChunks env dimensions rest

def completeEmbeddedJob (env : Env) (now : Time) (job : ClaimedJob) (chunks : List EmbeddedChunk)
    (modelId : String) (dimensions : Nat) (db : Database) : Except StorageError Database :=
  if dimensions = 0 then .error (.invalidVectorDimensions dimensions)
  else
    match validateChunks env dimensions chunks with
    | .error e => .error e
    | .ok () => publishJob env now job chunks (some (modelId, dimensions)) false db

/-- Publishes chunks and schedules durable memory extraction in the same transaction. -/
def completeEmbeddedJobWithMemoryExtraction (env : Env) (now : Time) (job : ClaimedJob)
    (chunks : List EmbeddedChunk) (modelId : String) (dimensions : Nat) (db : Database) :
    Except StorageError Database :=
  if dimensions ≠ 768 then .error (.invalidVectorDimensions dimensions)
  else
    match validateChunks env dimensions chunks with
    | .error e => .error e
    | .ok () => publishJob env now job chunks (some (modelId, dimensions)) true db

-- ---------------------------------------------------------------------------
-- Stages and failure
-- ---------------------------------------------------------------------------

/-- The stage a job must be in to advance to `stage`. -/
def expectedStage : DocumentState → Option DocumentState
  | .chunking => some .extracting
  | .embedding => some .chunking
  | .indexing => some .embedding
  | _ => none

/-- Advances a claimed job and its current document revision to a processing stage. -/
def markJobStage (job : ClaimedJob) (stage : DocumentState) (db : Database) :
    Except StorageError Database :=
  match expectedStage stage with
  | none => .error (.invalidJobStage stage.asStr)
  | some expected =>
    let jobs := db.jobs.count fun j =>
      j.id = job.id ∧ j.revision = job.revision ∧ j.status = expected
    let documents := db.countDocument job.documentId job.revision
    let db := { db with
      jobs := db.jobs.update
        (fun j => j.id = job.id ∧ j.revision = job.revision ∧ j.status = expected)
        (fun j => { j with status := stage }) }
    if jobs ≠ 1 ∨ documents ≠ 1 then .error (.staleRevision job.documentId job.revision none)
    else .ok (db.setDocumentStatus job.documentId job.revision stage)

/-- Marks a claimed job and its document failed while preserving prior indexed content. The
    status of the job row is not looked at. -/
def failJob (job : ClaimedJob) (error : String) (db : Database) : Database :=
  let db := { db with
    jobs := db.jobs.update (fun j => j.id = job.id ∧ j.revision = job.revision)
      (fun j => { j with status := .failed, lastError := some error }) }
  db.setDocumentStatus job.documentId job.revision .failed

/-- Deletes a claimed document whose extracted content produced no chunks. -/
def deleteEmptyDocument (job : ClaimedJob) (db : Database) : Database :=
  match db.documents.find job.documentId with
  | none => db
  | some d =>
    if d.revision = job.revision ∧ (d.status = .extracting ∨ d.status = .chunking) then
      db.deleteDocument job.documentId
    else db

end Storage
