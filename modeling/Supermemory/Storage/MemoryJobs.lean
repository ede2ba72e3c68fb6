-- SUMMARY: Memory jobs: claiming, caching provider output, completion, and bounded retries.
import Supermemory.Storage.DocumentJobs

/-!
# Memory jobs

A memory job runs after the chunks of a document were published. Its row is of the
same table as the document jobs, and its handle carries the context of the
extraction.
-/

namespace Storage

/-- A durable provider-extraction job claimed independently of document indexing. -/
structure ClaimedMemoryJob where
  id : String
  documentId : String
  content : String
  revision : Nat
  organizationId : String
  containerTag : String
  documentDate : Option String
  extractionResult : Option String
  attempts : Nat
  deriving DecidableEq

/-- Claims one provider-extraction job and increments its durable attempt count. -/
def claimMemoryJob (now : Time) (db : Database) :
    Except StorageError (Option ClaimedMemoryJob × Database) :=
  match nextJob db now .memory with
  | none => .ok (none, db)
  | some (job, document) =>
    let claimed : ClaimedMemoryJob :=
      { id := job.id
        documentId := document.id
        content := document.content
        revision := job.revision
        organizationId := document.orgId
        containerTag := document.containerTags.headD "sm_project_default"
        documentDate := (document.metadata.get "date").bind Value.asStr
        extractionResult := job.extractionResult
        attempts := job.attempts + 1 }
    let updated := db.jobs.count fun j =>
      j.id = claimed.id ∧ j.revision = claimed.revision ∧ j.status = .queued
    if updated ≠ 1 then .error (.staleRevision claimed.documentId claimed.revision none)
    else .ok (some claimed, startJob db claimed.id claimed.revision)

/-- Fails the job row if it is active. -/
def markMemoryJobStale (db : Database) (id : String) (revision : Nat) : Database :=
  { db with
    jobs := db.jobs.update (fun j => j.id = id ∧ j.revision = revision ∧ j.status.IsActive)
      (fun j => { j with status := .failed, lastErrorKind := some "stale_revision", lastError := none }) }

/-- Persists provider output. When the guard fails, the row is marked stale, and that is
    committed before the error is returned. -/
def cacheMemoryExtraction (job : ClaimedMemoryJob) (result : String) (db : Database) :
    Except StorageError Unit × Database :=
  let updated := db.jobs.count fun j =>
    j.id = job.id ∧ j.revision = job.revision ∧ j.status = .extracting ∧
      db.documentRevision j.documentId = some j.revision
  if updated = 1 then
    (.ok (), { db with
      jobs := db.jobs.update
        (fun j => j.id = job.id ∧ j.revision = job.revision ∧ j.status = .extracting ∧
          db.documentRevision j.documentId = some j.revision)
        (fun j => { j with extractionResult := some result }) })
  else
    (.error (.staleRevision job.documentId job.revision none),
      markMemoryJobStale db job.id job.revision)

/-- Sets an extracting memory job to `done`. -/
def finishMemoryJob (db : Database) (id : String) (revision : Nat) : Database :=
  { db with
    jobs := db.jobs.update (fun j => j.id = id ∧ j.revision = revision ∧ j.status = .extracting)
      (fun j => { j with
        status := .done, extractionResult := none, lastErrorKind := none, lastError := none }) }

/-- Marks a memory job complete only while its claimed document revision is current. Otherwise
    the row is failed, whatever its status. -/
def completeMemoryJob (job : ClaimedMemoryJob) (db : Database) : Except StorageError Database :=
  let current := db.documentRevision job.documentId
  if current ≠ some job.revision then
    .ok { db with
      jobs := db.jobs.update (fun j => j.id = job.id ∧ j.revision = job.revision)
        (fun j => { j with
          status := .failed, lastErrorKind := some "stale_revision", lastError := none }) }
  else
    let jobs := db.jobs.count fun j =>
      j.id = job.id ∧ j.revision = job.revision ∧ j.status = .extracting
    let documents := db.countDocument job.documentId job.revision
    if jobs ≠ 1 ∨ documents ≠ 1 then .error (.staleRevision job.documentId job.revision current)
    else
      .ok ((finishMemoryJob db job.id job.revision).setDocumentStatus job.documentId job.revision
        .done)

def maxAttempts : Nat := 4

/-- Persists a bounded retry or terminal memory-extraction failure. The delay is in seconds. -/
def retryMemoryJob (now : Time) (job : ClaimedMemoryJob) (errorKind error : String)
    (retryDelay : Option Nat) (db : Database) : Except StorageError Database :=
  if db.documentRevision job.documentId ≠ some job.revision then
    .ok (markMemoryJobStale db job.id job.revision)
  else
    let terminal := retryDelay = none ∨ maxAttempts ≤ job.attempts
    let delaySeconds := (retryDelay.map (max 1)).getD 0
    let status := if terminal then DocumentState.failed else .queued
    let availableAt := now + delaySeconds
    let updated := db.jobs.count fun j =>
      j.id = job.id ∧ j.revision = job.revision ∧ j.status = .extracting
    let retried := { db with
      jobs := db.jobs.update
        (fun j => j.id = job.id ∧ j.revision = job.revision ∧ j.status = .extracting)
        (fun j => { j with
          status, lastErrorKind := some errorKind, lastError := some error, availableAt }) }
    if updated ≠ 1 then .error (.staleRevision job.documentId job.revision none)
    -- past the last representable instant `datetime` is `NULL`, which the column refuses
    else if lastTime < availableAt then .error .write
    else if terminal then .ok (retried.setDocumentStatus job.documentId job.revision .failed)
    else .ok retried

end Storage
