-- SUMMARY: Opening the store: seeding the local organization and recovering interrupted jobs.
import Supermemory.Storage.Memories

/-!
# Opening the store

Opening a migrated database queues again every job that some earlier process had
claimed, fails the memory jobs whose revision is gone, and puts the documents of
queued jobs back to the state they wait in.
-/

namespace Storage

def localSlug : String := "local"

/-- The identifier of the local organization, which is inserted when it is missing. -/
def seedOrganization (env : Env) (db : Database) : Except StorageError (String × Database) :=
  match db.organizations.rows.find? fun o => o.slug = localSlug with
  | some organization => .ok (organization.id, db)
  | none =>
    let id := env.generateId db.idsDrawn
    match db.organizations.insert { id, slug := localSlug } with
    | none => .error .write
    | some organizations => .ok (id, { db with organizations, idsDrawn := db.idsDrawn + 1 })

/-- Queues every claimed job again. -/
def requeueJobs (now : Time) (db : Database) : Database :=
  { db with
    jobs := db.jobs.update (fun j => j.status.IsClaimed)
      (fun j => { j with status := .queued, availableAt := now }) }

/-- Fails the queued memory jobs whose revision is not current. -/
def failStaleMemoryJobs (db : Database) : Database :=
  { db with
    jobs := db.jobs.update
      (fun j => j.kind = .memory ∧ j.status = .queued ∧
        db.documentRevision j.documentId ≠ some j.revision)
      (fun j => { j with status := .failed, lastErrorKind := some "stale_revision", lastError := none }) }

/-- A queued job of the given kind at the document's current revision. -/
def hasQueuedJob (db : Database) (kind : JobKind) (d : Document) : Prop :=
  ∃ j ∈ db.jobs.rows, j.documentId = d.id ∧ j.revision = d.revision ∧ j.kind = kind ∧
    j.status = .queued

instance (db : Database) (kind : JobKind) (d : Document) : Decidable (hasQueuedJob db kind d) :=
  inferInstanceAs (Decidable (∃ j ∈ _, _))

/-- Puts the documents in progress that have a queued job of a kind into a state. -/
def recoverDocuments (db : Database) (kind : JobKind) (status : DocumentState) : Database :=
  { db with
    documents := db.documents.update (fun d => hasQueuedJob db kind d ∧ d.status.IsClaimed)
      (fun d => { d with status }) }

/-- The part of `Storage::open` that runs on a migrated database. -/
def openStorage (env : Env) (now : Time) (db : Database) : Except StorageError (String × Database) :=
  match seedOrganization env db with
  | .error e => .error e
  | .ok (orgId, db) =>
    let db := failStaleMemoryJobs (requeueJobs now db)
    let db := recoverDocuments db .document .queued
    .ok (orgId, recoverDocuments db .memory .indexing)

end Storage
