-- SUMMARY: Document identity: sanitizing, finding the stored document, updating or inserting it, and deleting it.
import Mathlib.Data.List.Sort
import Supermemory.Storage.Schema

/-!
# Documents

An upsert finds the stored document by custom identifier or, without one, by
content, and then leaves it alone, changes its metadata, rewrites it under a new
revision, or inserts a new document. Rewriting and inserting queue a document job.
-/

namespace Storage

/-- All values needed for a document create or compatibility upsert. -/
structure UpsertDocument where
  content : String
  customId : Option String
  containerTags : List String
  entityContext : Option String
  metadata : Object
  taskType : String
  filepath : Option String
  filterByMetadata : Object
  dreaming : String
  deriving DecidableEq

/-- Result of an atomic identity/upsert decision. -/
structure UpsertResult where
  id : String
  status : DocumentState
  enqueued : Bool
  deriving DecidableEq, Repr

-- ---------------------------------------------------------------------------
-- Pure helpers
-- ---------------------------------------------------------------------------

def isControl (c : Char) : Bool :=
  let n := c.toNat
  n ≤ 0x08 || n = 0x0b || n = 0x0c || (0x0e ≤ n && n ≤ 0x1f) || n = 0x7f

def sanitizeContent (content : String) : String :=
  String.ofList (Text.trim ((Text.trim content.toList).filter (! isControl ·)))

def mergeMetadata (existing incoming : Object) : Object :=
  incoming.foldl (fun merged field => merged.insert field.1 field.2) existing

/-- The fields that take part in comparisons. -/
def comparable (source : Object) : Object :=
  source.filter fun field => ! "sm_".toList.isPrefixOf field.1.toList && field.1 != "commonQuestions"

def metadataEquivalent (left right : Object) : Prop := comparable left = comparable right

instance : Decidable (metadataEquivalent left right) := inferInstanceAs (Decidable (_ = _))

def normalizedTags (tags : List String) : List String :=
  (tags.filter fun tag => Text.trim tag.toList ≠ []).insertionSort (· ≤ ·)

-- ---------------------------------------------------------------------------
-- Identity
-- ---------------------------------------------------------------------------

def findCustom (db : Database) (orgId customId : String) (tags : List String) : Option Document :=
  db.documents.rows.find? fun d =>
    d.orgId = orgId ∧ d.customId = some customId ∧ d.containerTags = tags

def findDuplicate (db : Database) (orgId hash : String) (metadata : Object) (tags : List String) :
    Option Document :=
  db.documents.rows.find? fun d =>
    (d.orgId = orgId ∧ d.contentHash = hash ∧ d.status = .done) ∧
      normalizedTags d.containerTags = normalizedTags tags ∧ metadataEquivalent d.metadata metadata

/-- The existing document an upsert applies to. -/
def findExisting (db : Database) (orgId : String) (input : UpsertDocument) (hash : String) :
    Option Document :=
  match input.customId with
  | some customId => findCustom db orgId customId input.containerTags
  | none => findDuplicate db orgId hash input.metadata input.containerTags

-- ---------------------------------------------------------------------------
-- Upsert
-- ---------------------------------------------------------------------------

/-- An active document job of the document's current revision. -/
def hasActiveDocumentJob (db : Database) (id : String) : Prop :=
  ∃ j ∈ db.jobs.rows, j.documentId = id ∧ some j.revision = db.documentRevision id ∧
    j.kind = .document ∧ j.status.IsActive

instance (db : Database) (id : String) : Decidable (hasActiveDocumentJob db id) :=
  inferInstanceAs (Decidable (∃ j ∈ _, _))

/-- The `CHECK` constraints on what an input writes. -/
def UpsertDocument.Allowed (input : UpsertDocument) : Prop :=
  (input.taskType = "memory" ∨ input.taskType = "superrag") ∧
    (input.dreaming = "instant" ∨ input.dreaming = "dynamic")

instance : DecidablePred UpsertDocument.Allowed := fun _ => inferInstanceAs (Decidable (_ ∧ _))

def enqueueUnlessActive (env : Env) (now : Time) (db : Database) (documentId : String) :
    Except StorageError (Bool × Database) :=
  if hasActiveDocumentJob db documentId then .ok (false, db)
  else
    match db.documentRevision documentId with
    | none => .error .read
    | some revision =>
      match db.insertJob env now documentId .document revision with
      | .error e => .error e
      | .ok db => .ok (true, db)

/-- Fails the memory jobs of the document's earlier revisions. -/
def markMemoryJobsStale (db : Database) (id : String) : Database :=
  { db with
    jobs := db.jobs.update
      (fun j => j.documentId = id ∧ j.kind = .memory ∧ some j.revision ≠ db.documentRevision id ∧
        j.status.IsActive)
      (fun j => { j with status := .failed, lastErrorKind := some "stale_revision", lastError := none }) }

/-- Rewrites a document under its next revision. -/
def updateFull (db : Database) (id : String) (input : UpsertDocument) (hash : String)
    (metadata : Object) (status : DocumentState) : Except StorageError Database :=
  if input.Allowed then
    let db := { db with
      documents := db.documents.update (fun d => d.id = id) (fun d =>
        { d with
          content := input.content
          contentHash := hash
          customId := input.customId
          status
          containerTags := input.containerTags
          entityContext := input.entityContext
          metadata
          taskType := input.taskType
          filepath := input.filepath
          filterByMetadata := input.filterByMetadata
          dreaming := input.dreaming
          revision := d.revision + 1 }) }
    .ok (markMemoryJobsStale db id)
  else .error .write

/-- Rewrites a document and queues a job for its new revision. -/
def requeue (env : Env) (now : Time) (db : Database) (existing : Document) (input : UpsertDocument)
    (hash : String) : Except StorageError (UpsertResult × Database) :=
  match updateFull db existing.id input hash (mergeMetadata existing.metadata input.metadata)
      .queued with
  | .error e => .error e
  | .ok db =>
    match enqueueUnlessActive env now db existing.id with
    | .error e => .error e
    | .ok (enqueued, db) => .ok ({ id := existing.id, status := .queued, enqueued }, db)

def setMetadata (db : Database) (id : String) (metadata : Object) : Database :=
  { db with documents := db.documents.update (fun d => d.id = id) (fun d => { d with metadata }) }

def applyExisting (env : Env) (now : Time) (db : Database) (existing : Document)
    (input : UpsertDocument) (hash : String) : Except StorageError (UpsertResult × Database) :=
  let unchanged : UpsertResult := { id := existing.id, status := existing.status, enqueued := false }
  if hasActiveDocumentJob db existing.id then .ok (unchanged, db)
  else if existing.status = .failed then requeue env now db existing input hash
  else if existing.contentHash = hash then
    if metadataEquivalent existing.metadata input.metadata then .ok (unchanged, db)
    else if existing.status = .indexing then requeue env now db existing input hash
    else
      .ok (unchanged, setMetadata db existing.id (mergeMetadata existing.metadata input.metadata))
  else requeue env now db existing input hash

def insertNew (env : Env) (now : Time) (db : Database) (orgId : String) (input : UpsertDocument)
    (hash : String) : Except StorageError (UpsertResult × Database) :=
  let document : Document :=
    { id := env.generateId db.idsDrawn
      orgId
      content := input.content
      contentHash := hash
      customId := input.customId
      status := .queued
      containerTags := input.containerTags
      entityContext := input.entityContext
      metadata := input.metadata
      taskType := input.taskType
      filepath := input.filepath
      filterByMetadata := input.filterByMetadata
      dreaming := input.dreaming
      revision := 1 }
  if input.Allowed ∧ (∃ o ∈ db.organizations.rows, o.id = orgId) then
    match db.documents.insert document with
    | none => .error .write
    | some documents =>
      match enqueueUnlessActive env now { db with documents, idsDrawn := db.idsDrawn + 1 }
          document.id with
      | .error e => .error e
      | .ok (_, db) => .ok ({ id := document.id, status := .queued, enqueued := true }, db)
  else .error .write

/-- Sanitizes, identifies, updates, and if needed queues a document atomically. -/
def upsertDocumentFor (env : Env) (now : Time) (orgId : String) (input : UpsertDocument)
    (db : Database) : Except StorageError (UpsertResult × Database) :=
  let input := { input with content := sanitizeContent input.content }
  let hash := env.contentHash input.content
  match findExisting db orgId input hash with
  | some existing => applyExisting env now db existing input hash
  | none => insertNew env now db orgId input hash

-- ---------------------------------------------------------------------------
-- Deletion
-- ---------------------------------------------------------------------------

/-- Looks a document up by internal identifier first, then by custom identifier. -/
def findIdentifier (db : Database) (orgId identifier : String) : Option Document :=
  let candidates := db.documents.rows.filter fun d =>
    d.orgId = orgId ∧ (d.id = identifier ∨ d.customId = some identifier)
  (candidates.find? fun d => d.id = identifier).or candidates.head?

/-- Deletes one document by internal or custom identifier, with all its jobs. -/
def deleteDocumentFor (orgId identifier : String) (db : Database) : Bool × Database :=
  match findIdentifier db orgId identifier with
  | none => (false, db)
  | some document => (true, db.deleteDocument document.id)

end Storage
