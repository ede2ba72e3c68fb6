-- SUMMARY: Opening the store after a crash: every interrupted job is claimable again, what is finished stays, and opening again does nothing.
import Supermemory.Library.Loop
import Supermemory.Storage.StatusSteps

/-!
# Crash recovery

A crash keeps the database and loses the handles. Opening the store queues what was claimed and fails
nothing: an active job is of the current revision of its document, in every reachable state. What waits
then is claimed by every sequence of claims that is long enough, as each claim shortens the queue.
-/

namespace Storage

variable {env : Env} {now : Time} {db db' : Database}

-- ---------------------------------------------------------------------------
-- Active jobs are current
-- ---------------------------------------------------------------------------

/-- Every active job is of the current revision of its document. -/
def CurrentJobs (db : Database) : Prop :=
  ∀ j ∈ db.jobs, j.status.IsActive → db.documentRevision j.documentId = some j.revision

/-- Documents keep their revisions, and no job becomes active. -/
structure Calms (db db' : Database) : Prop where
  document : ∀ d ∈ db.documents, ∃ d' ∈ db'.documents, d'.id = d.id ∧ d'.revision = d.revision
  job : ∀ j' ∈ db'.jobs, j'.status.IsActive → ∃ j ∈ db.jobs, SameJob j j' ∧ j.status.IsActive

theorem Quiet.calms {finished : String → Nat → Prop} (h : Quiet finished db db') : Calms db db' where
  document d hd := by
    obtain ⟨d', hd', hid⟩ := h.documentKept d hd
    obtain ⟨e, he, heid, hrevision, _⟩ := h.document d' hd'
    obtain rfl := Table.eq_of_key he hd (heid.symm.trans hid)
    exact ⟨d', hd', hid, hrevision⟩
  job j' hj' hactive := by
    obtain ⟨j, hj, hsame, hbefore⟩ := h.job j' hj'
    exact ⟨j, hj, hsame, hbefore hactive⟩

namespace CurrentJobs

theorem calms (h : CurrentJobs db) (hcalms : Calms db db') : CurrentJobs db' := by
  intro j' hj' hactive
  obtain ⟨j, hj, ⟨_, howner, _, hrevision⟩, hbefore⟩ := hcalms.job j' hj' hactive
  obtain ⟨d, hd, hid, hcurrent⟩ := documentRevision_eq_some.mp (h j hj hbefore)
  obtain ⟨d', hd', hid', hsame⟩ := hcalms.document d hd
  rw [howner, hrevision]
  exact documentRevision_eq_some.mpr ⟨d', hd', hid'.trans hid, hsame.trans hcurrent⟩

theorem quiet {finished : String → Nat → Prop} (h : CurrentJobs db) (hq : Quiet finished db db') : CurrentJobs db' :=
  h.calms hq.calms

theorem quiet_never (h : CurrentJobs db) (hq : Quiet never db db') : CurrentJobs db' := h.quiet hq

theorem setDocumentStatus {id : String} {revision : Nat} {status : DocumentState} (h : CurrentJobs db) :
    CurrentJobs (db.setDocumentStatus id revision status) := by
  have hq : Quiet (fun _ _ => True) db (db.setDocumentStatus id revision status) :=
    Quiet.setDocumentStatus fun _ => trivial
  exact h.quiet hq

theorem insertJob {documentId : String} {kind : JobKind} {revision : Nat} (h : CurrentJobs db)
    (hcurrent : db.documentRevision documentId = some revision)
    (hinsert : db.insertJob env now documentId kind revision = .ok db') : CurrentJobs db' := by
  obtain ⟨_, jobs, hjobs, rfl⟩ := insertJob_ok hinsert
  intro j hj hactive
  cases (Table.mem_insert hjobs).mp hj with
  | inl hj => exact h j hj hactive
  | inr hnew => exact hnew ▸ hcurrent

theorem enqueue {id : String} {enqueued : Bool} (h : CurrentJobs db)
    (henqueue : enqueueUnlessActive env now db id = .ok (enqueued, db')) : CurrentJobs db' := by
  rcases enqueueUnlessActive_ok henqueue with ⟨_, rfl⟩ | ⟨_, d, hd, hid, hinsert⟩
  · exact h
  · exact h.insertJob (documentRevision_eq_some.mpr ⟨d, hd, hid, rfl⟩) hinsert

/-- The document that is rewritten has no active document job, and its memory jobs are failed. -/
theorem rewrite {id : String} {status : DocumentState} (h : CurrentJobs db) (hidle : ¬ hasActiveDocumentJob db id)
    (hrewrites : Rewrites id status db db') : CurrentJobs db' := by
  intro j' hj' hactive
  obtain ⟨j, hj, ⟨_, howner, hkind, hrevision⟩, hsame⟩ := hrewrites.job j' hj'
  have hbefore : j' = j := hsame.resolve_right fun hfailed =>
    absurd (hfailed.2.2.2 ▸ hactive) DocumentState.not_isActive_failed
  subst hbefore
  obtain ⟨d, hd, hid, hcurrent⟩ := documentRevision_eq_some.mp (h j' hj hactive)
  obtain ⟨d', hd', hid'⟩ := hrewrites.documentKept d hd
  refine documentRevision_eq_some.mpr ⟨d', hd', hid'.trans hid, ?_⟩
  by_cases hother : d.id = id
  · cases hkind : j'.kind with
    | document =>
      have hnow : some j'.revision = db.documentRevision id := hother ▸ hid ▸ (h j' hj hactive).symm
      exact absurd ⟨j', hj, hid.symm.trans hother, hnow, hkind, hactive⟩ hidle
    | memory => exact (hrewrites.stale j' hj' hkind hactive d' hd' (hid'.trans hid) (hid'.trans hother)).symm
  · obtain ⟨e, he, heid, hrow⟩ := hrewrites.document d' hd'
    obtain rfl := Table.eq_of_key he hd (heid.symm.trans hid')
    cases hrow with
    | inl hsame => exact hsame.1 ▸ hcurrent
    | inr hrewritten => exact absurd hrewritten.1 hother

theorem upsertDocument {orgId : String} {input : UpsertDocument} {result : UpsertResult} (h : CurrentJobs db)
    (hupsert : upsertDocumentFor env now orgId input db = .ok (result, db')) : CurrentJobs db' := by
  obtain ⟨_, _, ⟨existing, _, happly⟩ | hnew⟩ := upsertDocumentFor_ok hupsert
  · rcases applyExisting_ok happly with rfl | ⟨metadata, rfl⟩ | ⟨hidle, hrequeue⟩
    · exact h
    · exact h.quiet_never (Quiet.updateDocuments (fun _ => rfl) (fun _ => rfl) fun _ _ _ hdone => .inl hdone)
    · obtain ⟨_, dbu, _, hupdate, henqueue⟩ := requeue_ok hrequeue
      exact (h.rewrite hidle (updateFull_rewrites hupdate)).enqueue henqueue
  · obtain ⟨document, documents, _, _, _, _, hinsert, henqueue⟩ := insertNew_ok hnew
    have hcalms : Calms db { db with documents, idsDrawn := db.idsDrawn + 1 } :=
      ⟨fun d hd => ⟨d, (Table.mem_insert hinsert).mpr (.inl hd), rfl, rfl⟩,
        fun j hj hactive => ⟨j, hj, ⟨rfl, rfl, rfl, rfl⟩, hactive⟩⟩
    exact (h.calms hcalms).enqueue henqueue

theorem publish {job : ClaimedJob} {chunks : List String} {schedule : Bool} (h : CurrentJobs db)
    (hp : Publishes env now job chunks schedule db db') : CurrentJobs db' := by
  obtain ⟨hcurrent, dbc, hsame, -, -, -, hcommit⟩ := hp
  have hchunks : Calms db dbc :=
    ⟨fun d hd => ⟨d, hsame.documents ▸ hd, rfl, rfl⟩,
      fun j hj hactive => ⟨j, hsame.jobs ▸ hj, ⟨rfl, rfl, rfl, rfl⟩, hactive⟩⟩
  have hfinished : CurrentJobs (finishJob dbc job.id job.revision) := (h.calms hchunks).quiet_never Quiet.finishJob
  cases schedule with
  | false =>
    obtain rfl : db' = _ := hcommit
    exact hfinished.setDocumentStatus
  | true =>
    obtain ⟨dbj, hinsert, rfl⟩ := hcommit
    have hrevision : (finishJob dbc job.id job.revision).documentRevision job.documentId = some job.revision := by
      rw [← hcurrent, Database.documentRevision, Database.documentRevision, ← hsame.documents]
      rfl
    exact (hfinished.insertJob hrevision hinsert).setDocumentStatus

theorem deleteDocument (h : CurrentJobs db) (id : String) : CurrentJobs (db.deleteDocument id) := by
  intro j hj hactive
  obtain ⟨hj, hother⟩ := Table.mem_delete.mp hj
  obtain ⟨d, hd, hid, hcurrent⟩ := documentRevision_eq_some.mp (h j hj hactive)
  have hkept : d ∈ (db.deleteDocument id).documents := Table.mem_delete.mpr ⟨hd, fun hsame => hother (hid ▸ hsame)⟩
  exact documentRevision_eq_some.mpr ⟨d, hkept, hid, hcurrent⟩

theorem startJob {id : String} {revision : Nat} (h : CurrentJobs db) : CurrentJobs (startJob db id revision) :=
  h.quiet_never Quiet.startJob

theorem completeMemoryJob {job : ClaimedMemoryJob} (h : CurrentJobs db)
    (hcomplete : completeMemoryJob job db = .ok db') : CurrentJobs db' := by
  rcases completeMemoryJob_ok hcomplete with ⟨_, rfl⟩ | ⟨_, _, rfl⟩
  · exact h.quiet_never (Quiet.updateJobs (fun _ => ⟨rfl, rfl, rfl, rfl⟩)
      fun _ _ _ hactive => absurd hactive DocumentState.not_isActive_failed)
  · exact (h.quiet_never Quiet.finishMemoryJob).setDocumentStatus

theorem retryMemoryJob {job : ClaimedMemoryJob} {errorKind error : String} {retryDelay : Option Nat}
    (h : CurrentJobs db) (hretry : retryMemoryJob now job errorKind error retryDelay db = .ok db') :
    CurrentJobs db' := by
  rcases retryMemoryJob_ok hretry with ⟨_, rfl⟩ | ⟨_, _, _, ⟨_, rfl⟩ | rfl⟩
  · exact h.quiet_never Quiet.markMemoryJobStale
  · exact h.quiet_never Quiet.retriedJob
  · exact (h.quiet_never Quiet.retriedJob).setDocumentStatus

theorem reconcileMemories {batch : Batch} {expectedRevision : Option Nat} {completion : Option String}
    {proposals : List MemoryProposal} {records : List MemoryRecord} (h : CurrentJobs db)
    (hreconcile : reconcileMemoriesFor env now batch expectedRevision completion proposals db = .ok (records, db')) :
    CurrentJobs db' := by
  obtain ⟨source, _, _, _, t, hloop, _, hfinish⟩ := reconcileMemoriesFor_ok hreconcile
  have hreconciled : CurrentJobs t.db := h.quiet_never (Quiet.memoriesOnly (reconcileProposals_memoriesOnly hloop))
  rcases hfinish with ⟨_, rfl⟩ | ⟨jobId, _, hfinish⟩
  · exact hreconciled
  · obtain ⟨_, rfl⟩ := finishReconciliation_ok hfinish
    exact (hreconciled.quiet_never Quiet.finishedReconciliation).setDocumentStatus

theorem run (h : CurrentJobs db) (call : Call) : CurrentJobs (call.run env now db).2 := by
  have heffect := call.effect env now db
  generalize call.run env now db = r at heffect ⊢
  cases heffect with
  | failed => exact h
  | nothing => exact h
  | upserted hr => exact h.upsertDocument hr
  | claimed hr =>
    obtain ⟨j, d, _, _, _, _, _, _, _, rfl⟩ := claimJob_some hr
    exact h.startJob.setDocumentStatus
  | staged hr =>
    obtain ⟨expected, hexpected, _, _, rfl⟩ := markJobStage_ok hr
    exact (h.quiet_never (Quiet.advanceJob (expectedStage_claimed hexpected).2)).setDocumentStatus
  | published _ _ _ hr => exact h.publish (publishJob_ok hr)
  | failedJob => exact h.quiet_never Quiet.failJob
  | deletedEmpty => exact h.deleteDocument _
  | deleted => exact h.deleteDocument _
  | claimedMemory hr =>
    obtain ⟨j, d, _, _, _, _, _, _, _, _, _, rfl⟩ := claimMemoryJob_some hr
    exact h.startJob
  | cached => exact h.quiet_never Quiet.cacheMemoryExtraction
  | completedMemory hr => exact h.completeMemoryJob hr
  | retried hr => exact h.retryMemoryJob hr
  | reconciled hr => exact h.reconcileMemories hr
  | forgot hr =>
    obtain ⟨_, _, _, _, rfl⟩ := forgetMemoryFor_ok hr
    exact h
  | opened hr => exact h.quiet_never (Quiet.openStorage hr)

end CurrentJobs

theorem currentJobs_of_reachable {s : System} (h : (machine env).Reachable s) : CurrentJobs s.db := by
  apply h.invariant (I := fun s => CurrentJobs s.db)
  · rintro s ⟨organizations, rfl⟩ j hj
    exact absurd hj Table.not_mem_empty
  · intro s event s' _ hcurrent hstep
    obtain ⟨_, rfl⟩ := machine_step.mp hstep
    rw [System.after_db]
    exact hcurrent.run event.2

-- ---------------------------------------------------------------------------
-- What opening leaves
-- ---------------------------------------------------------------------------

theorem seedOrganization_ok {orgId : String} (h : seedOrganization env db = .ok (orgId, db')) :
    (∃ organizations idsDrawn, db' = { db with organizations, idsDrawn }) ∧
    ∃ o, (db'.organizations.rows.find? fun o => o.slug = localSlug) = some o ∧ o.id = orgId := by
  unfold seedOrganization at h
  split at h
  · rename_i organization hfind
    cases h
    exact ⟨⟨_, _, rfl⟩, organization, hfind, rfl⟩
  · rename_i hnone
    simp only at h
    split at h
    · cases h
    · rename_i organizations hinsert
      cases h
      refine ⟨⟨_, _, rfl⟩, { id := env.generateId db.idsDrawn, slug := localSlug }, ?_, rfl⟩
      rw [Table.insert_rows hinsert, List.find?_append, hnone]
      rfl

/-- The local organization is there once it was seeded. -/
theorem seedOrganization_again {o : Organization}
    (h : (db.organizations.rows.find? fun o => o.slug = localSlug) = some o) :
    seedOrganization env db = .ok (o.id, db) := by
  unfold seedOrganization
  rw [h]

/-- No queued memory job is of another revision than its document. -/
theorem CurrentJobs.failStaleMemoryJobs (h : CurrentJobs db) : failStaleMemoryJobs db = db := by
  unfold Storage.failStaleMemoryJobs
  rw [Table.update_eq_self]
  intro j hj hstale
  obtain ⟨_, hqueued, hrevision⟩ := hstale
  exact hrevision (h j hj (hqueued ▸ DocumentState.isActive_queued))

theorem CurrentJobs.requeueJobs (h : CurrentJobs db) : CurrentJobs (requeueJobs now db) :=
  h.quiet_never (Quiet.updateJobs (fun _ => ⟨rfl, rfl, rfl, rfl⟩) fun _ _ hclaimed _ => hclaimed.isActive)

/-- Opening the store seeds the local organization, queues the claimed jobs, and recovers their documents. -/
theorem openStorage_eq {orgId : String} (hcurrent : CurrentJobs db)
    (hopen : openStorage env now db = .ok (orgId, db')) :
    ∃ seeded, seedOrganization env db = .ok (orgId, seeded) ∧
      db' = recoverDocuments (recoverDocuments (requeueJobs now seeded) .document .queued) .memory .indexing := by
  unfold openStorage at hopen
  split at hopen
  · cases hopen
  · rename_i id seeded hseed
    obtain ⟨⟨organizations, idsDrawn, hsame⟩, _⟩ := seedOrganization_ok hseed
    have hseeded : CurrentJobs seeded := hsame ▸ hcurrent
    simp only [hseeded.requeueJobs.failStaleMemoryJobs] at hopen
    cases hopen
    exact ⟨seeded, hseed, rfl⟩

/-- After a recovery, the documents in progress that have a queued job of the kind are in the state it gave them. -/
theorem recoverDocuments_status {kind : JobKind} {status : DocumentState} {d : Document}
    (hd : d ∈ (recoverDocuments db kind status).documents) (hjob : hasQueuedJob db kind d)
    (hclaimed : d.status.IsClaimed) : d.status = status := by
  obtain ⟨e, he, rfl⟩ := mem_recoverDocuments.mp hd
  unfold recovered at hjob hclaimed ⊢
  split
  · rfl
  · rename_i hnot
    rw [if_neg hnot] at hjob hclaimed
    exact absurd ⟨hjob, hclaimed⟩ hnot

/-- Recovering the documents of queued jobs a second time changes nothing. -/
theorem recoverDocuments_again (queue : Database) {twice : Database}
    (htwice : twice = recoverDocuments (recoverDocuments queue .document .queued) .memory .indexing) :
    recoverDocuments (recoverDocuments twice .document .queued) .memory .indexing = twice := by
  have hwaiting : ∀ d ∈ (recoverDocuments queue .document .queued).documents, hasQueuedJob queue .document d →
      ¬ d.status.IsClaimed := by
    intro d hd hjob hclaimed
    rw [recoverDocuments_status hd hjob hclaimed] at hclaimed
    exact absurd hclaimed (by decide)
  have hjobs (kind : JobKind) (d : Document) : hasQueuedJob twice kind d ↔ hasQueuedJob queue kind d := by
    rw [htwice]
    rfl
  have hfirst : recoverDocuments twice .document .queued = twice := by
    unfold recoverDocuments
    rw [Table.update_eq_self]
    rintro d hd ⟨hjob, hclaimed⟩
    rw [hjobs] at hjob
    rw [htwice] at hd
    obtain ⟨e, he, rfl⟩ := mem_recoverDocuments.mp hd
    unfold recovered at hjob hclaimed
    split at hjob
    · rename_i hguard
      exact hwaiting e he hjob hguard.2
    · rename_i hguard
      rw [if_neg hguard] at hclaimed
      exact hwaiting e he hjob hclaimed
  rw [hfirst]
  unfold recoverDocuments
  rw [Table.update_fixed]
  rintro d hd ⟨hjob, hclaimed⟩
  rw [hjobs] at hjob
  rw [htwice] at hd
  rw [← recoverDocuments_status hd hjob hclaimed]

theorem not_isClaimed_requeued (now : Time) (j : Job) : ¬ (requeued now j).status.IsClaimed := by
  unfold requeued
  split
  · exact (by decide : ¬ DocumentState.queued.IsClaimed)
  · assumption

theorem openStorage_again {orgId : String} (hcurrent : CurrentJobs db)
    (hopen : openStorage env now db = .ok (orgId, db')) (later : Time) :
    openStorage env later db' = .ok (orgId, db') := by
  have hcurrent' : CurrentJobs db' := hcurrent.quiet_never (Quiet.openStorage hopen)
  obtain ⟨seeded, hseed, hdb'⟩ := openStorage_eq hcurrent hopen
  obtain ⟨_, o, hfind, hid⟩ := seedOrganization_ok hseed
  have hseed' : seedOrganization env db' = .ok (orgId, db') := by
    rw [← hid]
    apply seedOrganization_again
    rw [hdb']
    exact hfind
  have hrequeue : requeueJobs later db' = db' := by
    unfold requeueJobs
    rw [Table.update_eq_self]
    intro j hj hclaimed
    rw [hdb'] at hj
    obtain ⟨i, _, rfl⟩ := mem_requeueJobs.mp hj
    exact not_isClaimed_requeued now i hclaimed
  unfold openStorage
  rw [hseed']
  simp only [hrequeue, hcurrent'.failStaleMemoryJobs]
  rw [recoverDocuments_again _ hdb']

-- ---------------------------------------------------------------------------
-- Claims
-- ---------------------------------------------------------------------------

/-- The operation that claims jobs of a kind. -/
def claimCall : JobKind → Call
  | .document => .claimJob
  | .memory => .claimMemoryJob

/-- The handle on a job, with what was cached for it and its attempts, this one counted. -/
def handle (j : Job) (d : Document) : Answer :=
  match j.kind with
  | .document =>
    .claimed (some { id := j.id, documentId := d.id, content := d.content, revision := j.revision })
  | .memory =>
    .claimedMemory (some
      { id := j.id
        documentId := d.id
        content := d.content
        revision := j.revision
        organizationId := d.orgId
        containerTag := d.containerTags.headD "sm_project_default"
        documentDate := (d.metadata.get "date").bind Value.asStr
        extractionResult := j.extractionResult
        attempts := j.attempts + 1 })

/-- The database after claims of one kind, one after the other. -/
def afterClaims (env : Env) (kind : JobKind) (times : List Time) (db : Database) : Database :=
  times.foldl (fun db now => ((claimCall kind).run env now db).2) db

/-- How many jobs of a kind are queued. -/
def queueLength (db : Database) (kind : JobKind) : Nat :=
  db.jobs.count fun j => j.kind = kind ∧ j.status = .queued

/-- The job waits to be claimed, and its document is there, in some status. -/
structure Waits (db : Database) (j : Job) (d : Document) : Prop where
  mem : j ∈ db.jobs
  queued : j.status = .queued
  document : ∃ status, { d with status } ∈ db.documents
  owner : d.id = j.documentId
  revision : d.revision = j.revision

variable {kind : JobKind} {j k : Job} {d e : Document}

theorem Waits.next (h : Waits db j d) (havailable : j.availableAt ≤ now) :
    ∃ k e, nextJob db now j.kind = some (k, e) := by
  obtain ⟨status, hd⟩ := h.document
  have hcurrent : db.documentRevision j.documentId = some j.revision :=
    documentRevision_eq_some.mpr ⟨_, hd, h.owner, h.revision⟩
  have hmem : j ∈ availableJobs db now j.kind :=
    List.mem_filter.mpr ⟨h.mem, decide_eq_true ⟨rfl, h.queued, hcurrent.symm, havailable⟩⟩
  unfold nextJob
  cases hfirst : (availableJobs db now j.kind).argmin Job.createdAt with
  | none => exact absurd hmem (List.argmin_eq_none.mp hfirst ▸ List.not_mem_nil)
  | some k =>
    obtain ⟨_, hguard⟩ := List.mem_filter.mp (List.argmin_mem (Option.mem_def.mpr hfirst))
    obtain ⟨_, _, hrevision, _⟩ := of_decide_eq_true hguard
    obtain ⟨e, hfind, _⟩ := Option.map_eq_some_iff.mp hrevision.symm
    exact ⟨k, e, by simp only [hfind, Option.map_some]⟩

/-- Claiming the next job returns the handle on it, starts it, and changes no document but in its status. -/
theorem claim_run (hnext : nextJob db now kind = some (k, e)) :
    ∃ db', (claimCall kind).run env now db = (.ok (handle k e), db') ∧
      db'.jobs = (startJob db k.id k.revision).jobs ∧
      ∀ d ∈ db.documents, ∃ status, { d with status } ∈ db'.documents := by
  obtain ⟨hk, _, _, hkind, hqueued, _⟩ := nextJob_some hnext
  cases kind with
  | document =>
    refine ⟨(startJob db k.id k.revision).setDocumentStatus e.id k.revision .extracting, ?_, rfl, ?_⟩
    · simp only [claimCall, Call.run, claimJob, hnext, handle, hkind]
    · intro d hd
      have hmem : _ ∈ db.documents.update (fun d => d.id = e.id ∧ d.revision = k.revision)
          (fun d => { d with status := .extracting }) := Table.update_mem hd
      split at hmem
      · exact ⟨.extracting, hmem⟩
      · exact ⟨d.status, hmem⟩
  | memory =>
    refine ⟨startJob db k.id k.revision, ?_, rfl, fun d hd => ⟨d.status, hd⟩⟩
    have hone : (db.jobs.count fun j => j.id = k.id ∧ j.revision = k.revision ∧ j.status = .queued) = 1 :=
      (countJobs_eq_one fun _ h => h.1).mpr ⟨k, hk, rfl, rfl, hqueued⟩
    simp only [claimCall, Call.run, claimMemoryJob, hnext, hone, ne_eq, not_true, if_false, handle, hkind]
    rfl

/-- A job keeps waiting while others are claimed. -/
theorem Waits.other (h : Waits db j d) (hk : k ∈ db.jobs) (hother : k ≠ j)
    (hjobs : db'.jobs = (startJob db k.id k.revision).jobs)
    (hdocuments : ∀ d ∈ db.documents, ∃ status, { d with status } ∈ db'.documents) : Waits db' j d := by
  obtain ⟨status, hd⟩ := h.document
  obtain ⟨status', hd'⟩ := hdocuments _ hd
  refine ⟨?_, h.queued, ⟨status', hd'⟩, h.owner, h.revision⟩
  rw [hjobs]
  have hmem : _ ∈ db.jobs.update (fun j => j.id = k.id ∧ j.revision = k.revision ∧ j.status = .queued)
      (fun j => { j with status := .extracting, attempts := j.attempts + 1 }) := Table.update_mem h.mem
  rw [if_neg fun hguard => hother (Table.eq_of_key hk h.mem hguard.1.symm)] at hmem
  exact hmem

theorem queueLength_claimed (hk : k ∈ db.jobs) (hkind : k.kind = kind) (hqueued : k.status = .queued)
    (hjobs : db'.jobs = (startJob db k.id k.revision).jobs) : queueLength db' kind < queueLength db kind := by
  unfold queueLength
  rw [hjobs]
  dsimp only [startJob]
  refine Table.count_update_lt ?_ hk ⟨rfl, rfl, hqueued⟩ ⟨hkind, hqueued⟩ ?_
  · intro r _ _ hafter
    exact absurd hafter.2 DocumentState.noConfusion
  · exact fun hafter => absurd hafter.2 DocumentState.noConfusion

/-- Every sequence of claims as long as the queue claims a job that is available all along. -/
theorem Waits.claimed {times : List Time} (h : Waits db j d) (havailable : ∀ t ∈ times, j.availableAt ≤ t)
    (hlength : queueLength db j.kind ≤ times.length) :
    ∃ earlier t later, times = earlier ++ t :: later ∧
      ((claimCall j.kind).run env t (afterClaims env j.kind earlier db)).1 = .ok (handle j d) := by
  induction times generalizing db with
  | nil =>
    have hpos : 0 < queueLength db j.kind :=
      List.countP_pos_iff.mpr ⟨j, h.mem, decide_eq_true ⟨rfl, h.queued⟩⟩
    exact absurd hlength (Nat.not_le.mpr hpos)
  | cons t rest ih =>
    obtain ⟨k, e, hnext⟩ := h.next (havailable t List.mem_cons_self)
    obtain ⟨hk, he, heid, hkind, hqueued, _⟩ := nextJob_some hnext
    obtain ⟨db', hrun, hjobs, hdocuments⟩ := @claim_run env t db _ k e hnext
    by_cases hsame : k = j
    · subst hsame
      obtain ⟨status, hd⟩ := h.document
      obtain rfl := Table.eq_of_key he hd (heid.trans h.owner.symm)
      refine ⟨[], t, rest, rfl, ?_⟩
      change ((claimCall k.kind).run env t db).1 = _
      rw [hrun]
      rfl
    · have hshorter := queueLength_claimed hk hkind hqueued hjobs
      have hwaits : Waits db' j d := h.other hk hsame hjobs hdocuments
      obtain ⟨earlier, t', later, hsplit, hclaim⟩ :=
        ih hwaits (fun t' ht' => havailable t' (List.mem_cons_of_mem t ht')) (by
          rw [List.length_cons] at hlength
          omega)
      refine ⟨t :: earlier, t', later, by rw [hsplit, List.cons_append], ?_⟩
      change ((claimCall j.kind).run env t' (afterClaims env j.kind earlier
        ((claimCall j.kind).run env t db).2)).1 = _
      rw [hrun]
      exact hclaim

-- ---------------------------------------------------------------------------
-- Recovery
-- ---------------------------------------------------------------------------

/-- The work that is not finished: documents, revisions and kinds of the active jobs. -/
def activeJobs (db : Database) : Set (String × Nat × JobKind) :=
  { work | ∃ j ∈ db.jobs, j.status.IsActive ∧ work = (j.documentId, j.revision, j.kind) }

/-- What opening makes of a store. -/
structure Recovers (env : Env) (db : Database) (orgId : String) (db' : Database) : Prop where
  unclaimed : ∀ j ∈ db'.jobs, ¬ j.status.IsClaimed
  active : activeJobs db' = activeJobs db
  /-- Each active job is still there, and enough claims from when it is available on return the handle on it. -/
  claimable : ∀ j ∈ db.jobs, j.status.IsActive → ∃ d ∈ db.documents, d.id = j.documentId ∧
    ∃ j' ∈ db'.jobs, SameJob j j' ∧ j'.extractionResult = j.extractionResult ∧ j'.attempts = j.attempts ∧
      ∀ times : List Time, (∀ t ∈ times, j'.availableAt ≤ t) → queueLength db' j.kind ≤ times.length →
        ∃ earlier t later, times = earlier ++ t :: later ∧
          ((claimCall j.kind).run env t (afterClaims env j.kind earlier db')).1 = .ok (handle j d)
  jobs : ∀ j : Job, j.status = .done ∨ j.status = .failed → (j ∈ db'.jobs ↔ j ∈ db.jobs)
  documents : ∀ d : Document, d.status = .done ∨ d.status = .failed → (d ∈ db'.documents ↔ d ∈ db.documents)
  revision : ∀ id, db'.documentRevision id = db.documentRevision id
  chunks : db'.chunks = db.chunks ∧ db'.chunkEmbeddings = db.chunkEmbeddings
  memories : db'.memories = db.memories ∧ db'.memorySources = db.memorySources ∧
    db'.memoryRelations = db.memoryRelations ∧ db'.memoryEmbeddings = db.memoryEmbeddings
  again : ∀ later, openStorage env later db' = .ok (orgId, db')

/-- Opening sets the status of a document in progress, to one that it waits in. -/
theorem enacts_openStorage {status : DocumentState} (h : Call.Enacts db .openStorage d status) :
    d.status.IsClaimed ∧ (status = .queued ∨ status = .indexing) := by
  cases h with
  | published hjob => cases hjob
  | requeued _ _ _ _ hclaimed => exact ⟨hclaimed, .inl rfl⟩
  | recovered _ _ _ _ hclaimed => exact ⟨hclaimed, .inr rfl⟩

theorem requeued_eq (h : j.status = .done ∨ j.status = .failed) : requeued now j = j := by
  apply if_neg
  intro hclaimed
  cases h with
  | inl h => exact absurd (h ▸ hclaimed) (by decide)
  | inr h => exact absurd (h ▸ hclaimed) (by decide)

theorem requeued_isActive : (requeued now j).status.IsActive ↔ j.status.IsActive := by
  unfold requeued
  split
  · exact ⟨fun _ => ‹j.status.IsClaimed›.isActive, fun _ => DocumentState.isActive_queued⟩
  · rfl

/-- What a claim returns of a job that was queued again. -/
theorem requeued_handle (now : Time) (j : Job) (d : Document) : handle (requeued now j) d = handle j d := by
  unfold requeued
  split
  · rfl
  · rfl

theorem requeued_kept (now : Time) (j : Job) :
    (requeued now j).extractionResult = j.extractionResult ∧ (requeued now j).attempts = j.attempts := by
  unfold requeued
  split
  · exact ⟨rfl, rfl⟩
  · exact ⟨rfl, rfl⟩

section Opened

variable {orgId : String} (hcurrent : CurrentJobs db) (hopen : openStorage env now db = .ok (orgId, db'))

include hcurrent hopen

theorem mem_opened_jobs {j' : Job} : j' ∈ db'.jobs ↔ ∃ j ∈ db.jobs, j' = requeued now j := by
  obtain ⟨seeded, hseed, rfl⟩ := openStorage_eq hcurrent hopen
  obtain ⟨⟨organizations, idsDrawn, rfl⟩, _⟩ := seedOrganization_ok hseed
  exact mem_requeueJobs

theorem activeJobs_opened : activeJobs db' = activeJobs db := by
  ext work
  constructor
  · rintro ⟨j', hj', hactive, hwork⟩
    obtain ⟨j, hj, rfl⟩ := (mem_opened_jobs hcurrent hopen).mp hj'
    obtain ⟨_, howner, hkind, hrevision⟩ := requeued_same now j
    refine ⟨j, hj, requeued_isActive.mp hactive, ?_⟩
    rw [hwork, howner, hkind, hrevision]
  · rintro ⟨j, hj, hactive, hwork⟩
    obtain ⟨_, howner, hkind, hrevision⟩ := requeued_same now j
    refine ⟨requeued now j, (mem_opened_jobs hcurrent hopen).mpr ⟨j, hj, rfl⟩, requeued_isActive.mpr hactive, ?_⟩
    rw [hwork, howner, hkind, hrevision]

omit hcurrent in
/-- A document is there after the opening, in the status it had or in one that it is recovered to. -/
theorem opened_document (hd : d ∈ db.documents) : ∃ status, { d with status } ∈ db'.documents ∧
    (status = d.status ∨ d.status.IsClaimed) := by
  have hq : Quiet never db db' := Quiet.openStorage hopen
  obtain ⟨d', hd', hid⟩ := hq.documentKept d hd
  obtain ⟨e, he, hsame, hstatus⟩ := openStorage_restates hopen d' hd'
  have heid : e.id = d.id := (congrArg Document.id hsame).symm.trans hid
  obtain rfl := Table.eq_of_key he hd heid
  exact ⟨d'.status, hsame ▸ hd', hstatus.imp_right fun henacts => (enacts_openStorage henacts).1⟩

omit hcurrent in
theorem mem_opened_documents (hfinished : d.status = .done ∨ d.status = .failed) :
    d ∈ db'.documents ↔ d ∈ db.documents := by
  have hunclaimed : ¬ d.status.IsClaimed := by
    cases hfinished with
    | inl h => exact h ▸ (by decide)
    | inr h => exact h ▸ (by decide)
  constructor
  · intro hd
    obtain ⟨e, he, hsame, hstatus⟩ := openStorage_restates hopen d hd
    have hfinal : d.status = e.status := by
      apply hstatus.resolve_right
      intro henacts
      obtain ⟨_, hwaits⟩ := enacts_openStorage henacts
      rcases hfinished with h | h
      · rw [h] at hwaits
        exact absurd hwaits (by decide)
      · rw [h] at hwaits
        exact absurd hwaits (by decide)
    rw [hfinal] at hsame
    exact hsame ▸ he
  · intro hd
    obtain ⟨status, hmem, hstatus⟩ := opened_document hopen hd
    obtain rfl := hstatus.resolve_right hunclaimed
    exact hmem

omit hcurrent in
theorem opened_revision (id : String) : db'.documentRevision id = db.documentRevision id := by
  have hq : Quiet never db db' := Quiet.openStorage hopen
  apply Option.ext
  intro revision
  rw [documentRevision_eq_some, documentRevision_eq_some]
  constructor
  · rintro ⟨d', hd', hid, hrevision⟩
    obtain ⟨d, hd, hsame, hkept, _⟩ := hq.document d' hd'
    exact ⟨d, hd, hsame.symm.trans hid, hkept.symm.trans hrevision⟩
  · rintro ⟨d, hd, hid, hrevision⟩
    obtain ⟨d', hd', hsame, hkept⟩ := hq.calms.document d hd
    exact ⟨d', hd', hsame.trans hid, hkept.trans hrevision⟩

theorem opened_waits (hj : j ∈ db.jobs) (hactive : j.status.IsActive) :
    ∃ d ∈ db.documents, d.id = j.documentId ∧ Waits db' (requeued now j) d := by
  obtain ⟨d, hd, hid, hrevision⟩ := documentRevision_eq_some.mp (hcurrent j hj hactive)
  obtain ⟨_, howner, _, hsame⟩ := requeued_same now j
  obtain ⟨status, hd', _⟩ := opened_document hopen hd
  refine ⟨d, hd, hid, (mem_opened_jobs hcurrent hopen).mpr ⟨j, hj, rfl⟩, requeued_status hactive, ⟨status, hd'⟩,
    hid.trans howner.symm, hrevision.trans hsame.symm⟩

theorem openStorage_recovers : Recovers env db orgId db' where
  unclaimed j' hj' := by
    obtain ⟨j, _, rfl⟩ := (mem_opened_jobs hcurrent hopen).mp hj'
    exact not_isClaimed_requeued now j
  active := activeJobs_opened hcurrent hopen
  claimable j hj hactive := by
    obtain ⟨d, hd, hid, hwaits⟩ := opened_waits hcurrent hopen hj hactive
    obtain ⟨hresult, hattempts⟩ := requeued_kept now j
    refine ⟨d, hd, hid, requeued now j, hwaits.mem, requeued_same now j, hresult, hattempts, ?_⟩
    intro times havailable hlength
    have hclaim := @Waits.claimed env db' (requeued now j) d times hwaits havailable
    rw [(requeued_same now j).2.2.1, requeued_handle] at hclaim
    exact hclaim hlength
  jobs j hfinished := by
    rw [mem_opened_jobs hcurrent hopen]
    constructor
    · rintro ⟨i, hi, hsame⟩
      have hfinal : ¬ i.status.IsActive := by
        intro hactive
        have hactive : j.status.IsActive := hsame ▸ requeued_isActive.mpr hactive
        cases hfinished with
        | inl h => exact absurd (h ▸ hactive) DocumentState.not_isActive_done
        | inr h => exact absurd (h ▸ hactive) DocumentState.not_isActive_failed
      have hkept : requeued now i = i := if_neg fun hclaimed => hfinal hclaimed.isActive
      exact (hsame.trans hkept) ▸ hi
    · exact fun hj => ⟨j, hj, (requeued_eq hfinished).symm⟩
  documents d hfinished := mem_opened_documents hopen hfinished
  revision := opened_revision hopen
  chunks := by
    obtain ⟨_, _, _, rfl⟩ := openStorage_ok hopen
    exact ⟨rfl, rfl⟩
  memories := by
    obtain ⟨_, _, _, rfl⟩ := openStorage_ok hopen
    exact ⟨rfl, rfl, rfl, rfl⟩
  again := openStorage_again hcurrent hopen

end Opened

/-- Opening is refused only where the local organization is missing and its new identifier is taken. -/
theorem openStorage_refused {error : StorageError} (h : openStorage env now db = .error error) :
    (∀ o ∈ db.organizations, o.slug ≠ localSlug) ∧ ∃ o ∈ db.organizations, o.id = env.generateId db.idsDrawn := by
  unfold openStorage at h
  split at h
  · rename_i e hseed
    unfold seedOrganization at hseed
    split at hseed
    · cases hseed
    · rename_i hnone
      simp only at hseed
      split at hseed
      · rename_i hinsert
        refine ⟨fun o ho hslug => ?_, Table.insert_eq_none.mp hinsert⟩
        exact List.find?_eq_none.mp hnone o ho (decide_eq_true hslug)
      · cases hseed
  · cases h

/-- Whatever was interrupted, opening the store recovers it. -/
theorem crash_recovery {s : System} (hs : (machine env).Reachable s) (now : Time) :
    (∀ error, openStorage env now s.db = .error error → (∀ o ∈ s.db.organizations, o.slug ≠ localSlug) ∧
      ∃ o ∈ s.db.organizations, o.id = env.generateId s.db.idsDrawn) ∧
    ∀ orgId db', openStorage env now s.db = .ok (orgId, db') → Recovers env s.db orgId db' :=
  ⟨fun _ h => openStorage_refused h, fun _ _ h => openStorage_recovers (currentJobs_of_reachable hs) h⟩

/-- One worker has cached the extraction of a document, another one has claimed a second document. -/
def interrupted : Option System :=
  let job : ClaimedJob := ⟨"xx", "x", "a fact", 1⟩
  afterCalls [.openStorage, .upsertDocument "" (upsertOf "a fact"), .claimJob, .markJobStage job .chunking,
    .markJobStage job .embedding, .completeEmbeddedJobWithMemoryExtraction job [] "model" 768, .claimMemoryJob,
    .cacheMemoryExtraction ⟨"xxx", "x", "a fact", 1, "", "tag", none, none, 1⟩ "[]",
    .upsertDocument "" { upsertOf "another fact" with customId := none }, .claimJob]

/-- After the crash the extraction is claimed again, with the cached result, and the claim is the second attempt. -/
theorem crash_recovery_interrupted : ∃ s orgId db', interrupted = some s ∧
    (s.db.jobs.count fun j => j.status.IsClaimed) = 2 ∧
    openStorage unaryEnv 63871286401 s.db = .ok (orgId, db') ∧
    (Call.claimMemoryJob.run unaryEnv 63871286401 db').1 =
      .ok (.claimedMemory (some ⟨"xxx", "x", "a fact", 1, "", "tag", none, some "[]", 2⟩)) ∧
    openStorage unaryEnv 63871286402 db' = .ok (orgId, db') := by
  have hrun : ∃ s ∈ interrupted, (s.db.jobs.count fun j => j.status.IsClaimed) = 2 ∧
      ∃ r ∈ (openStorage unaryEnv 63871286401 s.db).toOption,
        (Call.claimMemoryJob.run unaryEnv 63871286401 r.2).1 =
          .ok (.claimedMemory (some ⟨"xxx", "x", "a fact", 1, "", "tag", none, some "[]", 2⟩)) := by
    decide +kernel
  obtain ⟨s, hs, hclaimed, ⟨orgId, db'⟩, hopen, hclaim⟩ := hrun
  have hopen := Loop.ok_of_mem_toOption hopen
  have hrecovers := (crash_recovery (afterCalls_reachable hs) 63871286401).2 orgId db' hopen
  exact ⟨s, orgId, db', hs, hclaimed, hopen, hclaim, hrecovers.again 63871286402⟩

end Storage
