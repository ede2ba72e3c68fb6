-- SUMMARY: The tables of the store, their rows, and the statements that several operations share.
import Supermemory.Json
import Supermemory.Library.Table
import Supermemory.Text

/-!
# Schema

The rows keep every column that some modelled operation reads. A transaction is a
function on the whole database that returns an error or the new database, so an
error leaves the database as it was.
-/

namespace Storage

/-- Seconds since the earliest instant `SQLite` represents, the beginning of year 0. -/
abbrev Time := Nat

/-- The latest instant `SQLite` represents, the end of year 9999. -/
def lastTime : Time := 315569519999

/-- The bits of an `f32`. -/
abbrev F32 := BitVec 32

/-- What the store takes from outside: the random source, the hash, the Unicode tables, the
    vector arithmetic, and the date functions of `SQLite`. -/
structure Env where
  /-- The identifiers `generate_id` returns, one after the other. -/
  generateId : Nat → String
  /-- No identifier is generated twice. -/
  generateId_injective : Function.Injective generateId
  contentHash : String → String
  toLowercase : Text → Text
  isAlphanumeric : Char → Bool
  /-- Whether the L2 norm is within `1e-4` of one. -/
  hasUnitNorm : List F32 → Bool
  /-- `datetime(value)` at a given `CURRENT_TIMESTAMP`. -/
  datetime : Time → String → Option Time
  /-- The text of `CURRENT_TIMESTAMP`. -/
  timestamp : Time → String

inductive DocumentState where
  | unknown | queued | extracting | chunking | embedding | indexing | done | failed
  deriving DecidableEq, Repr

namespace DocumentState

def asStr : DocumentState → String
  | unknown => "unknown"
  | queued => "queued"
  | extracting => "extracting"
  | chunking => "chunking"
  | embedding => "embedding"
  | indexing => "indexing"
  | done => "done"
  | failed => "failed"

/-- `status IN ('extracting','chunking','embedding','indexing')`: some worker holds the job. -/
def IsClaimed (s : DocumentState) : Prop :=
  s = extracting ∨ s = chunking ∨ s = embedding ∨ s = indexing

/-- `status IN ('queued','extracting','chunking','embedding','indexing')`. -/
def IsActive (s : DocumentState) : Prop := s = queued ∨ s.IsClaimed

instance : DecidablePred IsClaimed := fun _ => inferInstanceAs (Decidable (_ ∨ _))
instance : DecidablePred IsActive := fun _ => inferInstanceAs (Decidable (_ ∨ _))

theorem IsClaimed.isActive {s : DocumentState} (h : s.IsClaimed) : s.IsActive := .inr h

@[simp] theorem isActive_queued : queued.IsActive := .inl rfl

@[simp] theorem isActive_extracting : extracting.IsActive := .inr (.inl rfl)

@[simp] theorem not_isActive_done : ¬ done.IsActive := by decide

@[simp] theorem not_isActive_failed : ¬ failed.IsActive := by decide

end DocumentState

/-- Failure of a storage operation. `write` stands for a statement the engine refused, and
    `read` for a row that was not there. -/
inductive StorageError where
  | write
  | read
  | invalidVectorDimensions (dimensions : Nat)
  | invalidVectorLength (expected actual : Nat)
  | nonFiniteVector
  | invalidVectorNorm
  | staleRevision (documentId : String) (claimed : Nat) (current : Option Nat)
  | invalidJobStage (stage : String)
  | invalidMemoryProposal
  | unknownMemorySource (documentId : String)
  | memoryNotFound
  deriving DecidableEq, Repr

-- ---------------------------------------------------------------------------
-- Rows
-- ---------------------------------------------------------------------------

structure Organization where
  id : String
  slug : String
  deriving DecidableEq

structure Document where
  id : String
  orgId : String
  content : String
  contentHash : String
  customId : Option String
  status : DocumentState
  containerTags : List String
  entityContext : Option String
  metadata : Object
  taskType : String
  filepath : Option String
  filterByMetadata : Object
  dreaming : String
  revision : Nat
  deriving DecidableEq

inductive JobKind where
  | document | memory
  deriving DecidableEq, Repr

structure Job where
  id : String
  documentId : String
  kind : JobKind
  status : DocumentState
  attempts : Nat
  availableAt : Time
  lastError : Option String
  createdAt : Time
  revision : Nat
  extractionResult : Option String
  lastErrorKind : Option String
  deriving DecidableEq

structure Chunk where
  id : Nat
  documentId : String
  ordinal : Nat
  content : String
  stableId : String
  deriving DecidableEq

structure ChunkEmbedding where
  chunkId : Nat
  modelId : String
  dimensions : Nat
  vector : List (BitVec 8)
  deriving DecidableEq

structure Memory where
  id : String
  orgId : String
  containerTag : String
  content : String
  metadata : Object
  isInferred : Bool
  isStatic : Bool
  isLatest : Bool
  isForgotten : Bool
  rootMemoryId : Option String
  parentMemoryId : Option String
  version : Nat
  forgetAfter : Option String
  forgetReason : Option String
  createdAt : Time
  updatedAt : Time
  deriving DecidableEq

structure MemorySource where
  memoryId : String
  documentId : String
  deriving DecidableEq

structure MemoryRelation where
  parentId : String
  childId : String
  relation : String
  deriving DecidableEq

structure MemoryEmbedding where
  memoryId : String
  modelId : String
  dimensions : Nat
  vector : List (BitVec 8)
  active : Bool
  deriving DecidableEq

structure Database where
  organizations : Table Organization Organization.id
  documents : Table Document Document.id
  jobs : Table Job Job.id
  chunks : Table Chunk Chunk.id
  chunkEmbeddings : Table ChunkEmbedding ChunkEmbedding.chunkId
  memories : Table Memory Memory.id
  memorySources : Table MemorySource id
  memoryRelations : Table MemoryRelation id
  memoryEmbeddings : Table MemoryEmbedding MemoryEmbedding.memoryId
  /-- How many identifiers were generated. A transaction that fails gives its own back. -/
  idsDrawn : Nat
  deriving DecidableEq

-- ---------------------------------------------------------------------------
-- Vectors
-- ---------------------------------------------------------------------------

/-- `f32::is_finite`: the exponent is not all ones. -/
def isFinite (value : F32) : Bool := value.toNat / 2 ^ 23 % 2 ^ 8 ≠ 255

def validateVector (env : Env) (vector : List F32) (dimensions : Nat) : Except StorageError Unit :=
  if vector.length ≠ dimensions then .error (.invalidVectorLength dimensions vector.length)
  else if vector.any fun value => ! isFinite value then .error .nonFiniteVector
  else if env.hasUnitNorm vector = false then .error .invalidVectorNorm
  else .ok ()

/-- Little-endian bytes. -/
def vectorBytes (vector : List F32) : List (BitVec 8) :=
  vector.flatMap fun value => (List.range 4).map fun i => value.extractLsb' (8 * i) 8

-- ---------------------------------------------------------------------------
-- Shared statements
-- ---------------------------------------------------------------------------

namespace Database

/-- `UPDATE documents SET status=?3 WHERE id=?1 AND revision=?2`. -/
def setDocumentStatus (db : Database) (id : String) (revision : Nat) (status : DocumentState) :
    Database :=
  { db with
    documents := db.documents.update (fun d => d.id = id ∧ d.revision = revision)
      (fun d => { d with status }) }

/-- How many rows the `UPDATE` of `setDocumentStatus` changes. -/
def countDocument (db : Database) (id : String) (revision : Nat) : Nat :=
  db.documents.count fun d => d.id = id ∧ d.revision = revision

/-- `SELECT revision FROM documents WHERE id=?1`. -/
def documentRevision (db : Database) (id : String) : Option Nat :=
  (db.documents.find id).map (·.revision)

/-- `DELETE FROM documents WHERE id=?1`, with everything that cascades from it. -/
def deleteDocument (db : Database) (id : String) : Database :=
  { db with
    documents := db.documents.delete fun d => d.id = id
    jobs := db.jobs.delete fun j => j.documentId = id
    chunks := db.chunks.delete fun c => c.documentId = id
    chunkEmbeddings := db.chunkEmbeddings.delete fun e =>
      ∃ c ∈ db.chunks.rows, c.id = e.chunkId ∧ c.documentId = id
    memorySources := db.memorySources.delete fun s => s.documentId = id }

/-- `INSERT INTO jobs (id, document_id, kind, status, revision) VALUES (.., 'queued', ..)`.
    A document has at most one active job a revision. -/
def insertJob (env : Env) (now : Time) (db : Database) (documentId : String) (kind : JobKind)
    (revision : Nat) : Except StorageError Database :=
  let job : Job :=
    { id := env.generateId db.idsDrawn
      documentId, kind, revision
      status := .queued
      attempts := 0
      availableAt := now
      lastError := none
      createdAt := now
      extractionResult := none
      lastErrorKind := none }
  if ∃ j ∈ db.jobs.rows, j.documentId = documentId ∧ j.revision = revision ∧ j.status.IsActive then
    .error .write
  else
    match db.jobs.insert job with
    | none => .error .write
    | some jobs => .ok { db with jobs, idsDrawn := db.idsDrawn + 1 }

end Database

end Storage
