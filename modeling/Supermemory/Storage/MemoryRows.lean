-- SUMMARY: The rows of memory jobs: the statuses they have, and what the operations on a memory job leave of its row.
import Supermemory.Storage.Discipline

/-!
# The rows of memory jobs

A memory job is queued, extracting, done or failed: only the row of a document handle
is set to one of the other stages, and that is never the row of a memory job. An
operation on a memory job that succeeds leaves its row done, failed or queued, and so
does caching when it finds the job stale.
-/

namespace Storage

variable {env : Env} {now : Time} {db db' : Database} {s : System}

/-- A status that a memory job can have. -/
def DocumentState.OfMemory (status : DocumentState) : Prop :=
  status = queued ∨ status = extracting ∨ status = done ∨ status = failed

/-- Every memory job has a status of its own kind. -/
def MemoryStatuses (jobs : Table Job Job.id) : Prop :=
  ∀ j ∈ jobs, j.kind = .memory → j.status.OfMemory

namespace MemoryStatuses

variable {jobs : Table Job Job.id}

theorem update {p : Job → Prop} [DecidablePred p] {f : Job → Job} {hf : ∀ r, r.id = (f r).id}
    (h : MemoryStatuses jobs) (hp : ∀ r ∈ jobs, p r → (f r).kind = .memory → (f r).status.OfMemory) :
    MemoryStatuses (jobs.update p f hf) := by
  intro j hj hkind
  obtain ⟨r, hr, rfl⟩ := Table.mem_update.mp hj
  by_cases hpr : p r
  · rw [if_pos hpr] at hkind ⊢
    exact hp r hr hpr hkind
  · rw [if_neg hpr] at hkind ⊢
    exact h r hr hkind

theorem delete {p : Job → Prop} [DecidablePred p] (h : MemoryStatuses jobs) : MemoryStatuses (jobs.delete p) :=
  fun j hj => h j (Table.mem_delete.mp hj).1

theorem insertJob {documentId : String} {kind : JobKind} {revision : Nat} (h : MemoryStatuses db.jobs)
    (hinsert : db.insertJob env now documentId kind revision = .ok db') : MemoryStatuses db'.jobs := by
  obtain ⟨_, jobs, hins, rfl⟩ := insertJob_ok hinsert
  intro j hj hkind
  rcases (Table.mem_insert hins).mp hj with hj | rfl
  · exact h j hj hkind
  · exact .inl rfl

theorem enqueue {id : String} {enqueued : Bool} (h : MemoryStatuses db.jobs)
    (henqueue : enqueueUnlessActive env now db id = .ok (enqueued, db')) : MemoryStatuses db'.jobs := by
  rcases enqueueUnlessActive_ok henqueue with ⟨_, rfl⟩ | ⟨_, _, _, _, hinsert⟩
  · exact h
  · exact h.insertJob hinsert

theorem upsertDocument {orgId : String} {input : UpsertDocument} {result : UpsertResult}
    (h : MemoryStatuses db.jobs) (hupsert : upsertDocumentFor env now orgId input db = .ok (result, db')) :
    MemoryStatuses db'.jobs := by
  obtain ⟨_, _, ⟨existing, _, happly⟩ | hnew⟩ := upsertDocumentFor_ok hupsert
  · rcases applyExisting_ok happly with rfl | ⟨metadata, rfl⟩ | ⟨_, hrequeue⟩
    · exact h
    · exact h
    · obtain ⟨_, dbu, _, hupdate, henqueue⟩ := requeue_ok hrequeue
      refine enqueue (fun j hj hkind => ?_) henqueue
      obtain ⟨i, hi, ⟨_, _, hsame, _⟩, rfl | ⟨_, _, _, hfailed⟩⟩ := (updateFull_rewrites hupdate).job j hj
      · exact h j hi hkind
      · exact .inr (.inr (.inr hfailed))
  · obtain ⟨document, documents, _, _, _, _, _, henqueue⟩ := insertNew_ok hnew
    have hjobs : MemoryStatuses ({ db with documents, idsDrawn := db.idsDrawn + 1 } : Database).jobs := h
    exact hjobs.enqueue henqueue

theorem publish {k : ClaimedJob} {chunks : List String} {schedule : Bool} (h : MemoryStatuses db.jobs)
    (hp : Publishes env now k chunks schedule db db') : MemoryStatuses db'.jobs := by
  obtain ⟨_, dbc, hsame, -, -, -, hcommit⟩ := hp
  have hfinish : MemoryStatuses (finishJob dbc k.id k.revision).jobs := by
    dsimp only [finishJob]
    rw [hsame.jobs]
    exact h.update fun _ _ _ _ => .inr (.inr (.inl rfl))
  cases schedule with
  | false =>
    obtain rfl : db' = _ := hcommit
    exact hfinish
  | true =>
    obtain ⟨dbj, hinsert, rfl⟩ := hcommit
    have hscheduled : MemoryStatuses dbj.jobs := hfinish.insertJob hinsert
    exact hscheduled

theorem markMemoryJobStale {id : String} {revision : Nat} (h : MemoryStatuses db.jobs) :
    MemoryStatuses (markMemoryJobStale db id revision).jobs := by
  dsimp only [Storage.markMemoryJobStale]
  exact h.update fun _ _ _ _ => .inr (.inr (.inr rfl))

theorem openStorage {orgId : String} (h : MemoryStatuses db.jobs)
    (hopen : openStorage env now db = .ok (orgId, db')) : MemoryStatuses db'.jobs := by
  obtain ⟨organizations, idsDrawn, _, rfl⟩ := openStorage_ok hopen
  have hrequeued : MemoryStatuses (requeueJobs now { db with organizations, idsDrawn }).jobs := by
    dsimp only [requeueJobs]
    exact h.update fun _ _ _ _ => .inl rfl
  dsimp only [recoverDocuments, failStaleMemoryJobs]
  exact hrequeued.update fun _ _ _ _ => .inr (.inr (.inr rfl))

/-- A call keeps the statuses of memory jobs: a document handle is not the handle of one. -/
theorem run {call : Call} (h : MemoryStatuses s.db.jobs) (hs : Consistent env s) (hissued : call.Issued s) :
    MemoryStatuses (call.run env now s.db).2.jobs := by
  have heffect := call.effect env now s.db
  generalize call.run env now s.db = r at heffect ⊢
  cases heffect with
  | failed | nothing => exact h
  | upserted hr => exact h.upsertDocument hr
  | claimed hr =>
    obtain ⟨_, _, _, _, _, _, _, _, _, rfl⟩ := claimJob_some hr
    dsimp only [startJob, Database.setDocumentStatus]
    exact h.update fun _ _ _ _ => .inr (.inl rfl)
  | @staged job stage _ hr =>
    obtain ⟨expected, _, _, _, rfl⟩ := markJobStage_ok hr
    dsimp only [advanceJob, Database.setDocumentStatus]
    refine h.update fun r hr hguard hkind => ?_
    cases (hs.handleRow job (hissued.1 job rfl) r hr hguard.1).1.symm.trans hkind
  | published _ _ _ hr => exact h.publish (publishJob_ok hr)
  | failedJob =>
    dsimp only [Storage.failJob, Database.setDocumentStatus]
    exact h.update fun _ _ _ _ => .inr (.inr (.inr rfl))
  | deletedEmpty => exact h.delete
  | deleted => exact h.delete
  | claimedMemory hr =>
    obtain ⟨_, _, _, _, _, _, _, _, _, _, _, rfl⟩ := claimMemoryJob_some hr
    dsimp only [startJob]
    exact h.update fun _ _ _ _ => .inr (.inl rfl)
  | @cached job result =>
    rcases cacheMemoryExtraction_cases job result s.db with ⟨_, heq⟩ | ⟨_, heq⟩
    · rw [heq]
      dsimp only
      exact h.update fun r hr _ hkind => h r hr hkind
    · rw [heq]
      exact h.markMemoryJobStale
  | completedMemory hr =>
    rcases completeMemoryJob_ok hr with ⟨_, rfl⟩ | ⟨_, _, rfl⟩
    · dsimp only
      exact h.update fun _ _ _ _ => .inr (.inr (.inr rfl))
    · dsimp only [finishMemoryJob, Database.setDocumentStatus]
      exact h.update fun _ _ _ _ => .inr (.inr (.inl rfl))
  | retried hr =>
    rcases retryMemoryJob_ok hr with ⟨_, rfl⟩ | ⟨_, _, _, ⟨_, rfl⟩ | rfl⟩
    · exact h.markMemoryJobStale
    · dsimp only [retriedJob]
      exact h.update fun _ _ _ _ => .inl rfl
    · dsimp only [retriedJob, Database.setDocumentStatus]
      exact h.update fun _ _ _ _ => .inr (.inr (.inr rfl))
  | reconciled hr =>
    obtain ⟨source, _, _, _, t, hloop, _, hfinish⟩ := reconcileMemoriesFor_ok hr
    have hjobs : t.db.jobs = s.db.jobs := (reconcileProposals_memoriesOnly hloop).jobs
    rcases hfinish with ⟨_, rfl⟩ | ⟨jobId, _, hfinish⟩
    · rw [hjobs]
      exact h
    · obtain ⟨_, rfl⟩ := finishReconciliation_ok hfinish
      dsimp only [finishedReconciliation, Database.setDocumentStatus]
      rw [hjobs]
      exact h.update fun _ _ _ _ => .inr (.inr (.inl rfl))
  | forgot hr =>
    obtain ⟨_, _, _, _, rfl⟩ := forgetMemoryFor_ok hr
    exact h
  | opened hr => exact h.openStorage hr

end MemoryStatuses

theorem memoryStatuses_of_reachable (h : (machine env).Reachable s) : MemoryStatuses s.db.jobs := by
  apply h.invariant
  · rintro _ ⟨organizations, rfl⟩ j hj
    cases hj
  · intro s event s' hs hstatuses hstep
    obtain ⟨hissued, rfl⟩ := machine_step.mp hstep
    rw [System.after_db]
    exact hstatuses.run (consistent_of_reachable hs) hissued

-- ---------------------------------------------------------------------------
-- Released rows
-- ---------------------------------------------------------------------------

/-- No worker holds the job: its row is done, failed or queued, or it is gone. -/
def Released (jobs : Table Job Job.id) (id : String) : Prop :=
  ∀ j ∈ jobs, j.id = id → j.status = .done ∨ j.status = .failed ∨ j.status = .queued

/-- The rows of a memory handle. -/
structure MemoryRow (jobs : Table Job Job.id) (m : ClaimedMemoryJob) : Prop where
  status : ∀ j ∈ jobs, j.id = m.id → j.status.OfMemory
  revision : ∀ j ∈ jobs, j.id = m.id → j.revision = m.revision

theorem memoryRow_of_reachable (h : (machine env).Reachable s) {m : ClaimedMemoryJob} (hm : m ∈ s.memoryJobs) :
    MemoryRow s.db.jobs m where
  status j hj hid :=
    memoryStatuses_of_reachable h j hj ((consistent_of_reachable h).memoryHandleRow m hm j hj hid).1
  revision j hj hid := ((consistent_of_reachable h).memoryHandleRow m hm j hj hid).2.2

namespace MemoryRow

variable {jobs : Table Job Job.id} {m : ClaimedMemoryJob}

/-- A job that is not released is extracting. -/
theorem released_iff (h : MemoryRow jobs m) :
    Released jobs m.id ↔ ∀ j ∈ jobs, j.id = m.id → j.status ≠ .extracting := by
  constructor
  · intro hreleased j hj hid hextracting
    rcases hreleased j hj hid with hdone | hfailed | hqueued
    · cases hextracting.symm.trans hdone
    · cases hextracting.symm.trans hfailed
    · cases hextracting.symm.trans hqueued
  · intro hextracting j hj hid
    rcases h.status j hj hid with hqueued | hbusy | hdone | hfailed
    · exact .inr (.inr hqueued)
    · exact absurd hbusy (hextracting j hj hid)
    · exact .inl hdone
    · exact .inr (.inl hfailed)

/-- An update of the extracting row releases the job. -/
theorem released_update (h : MemoryRow jobs m) {p : Job → Prop} [DecidablePred p] {f : Job → Job}
    {hf : ∀ r, r.id = (f r).id} (hp : ∀ r ∈ jobs, r.id = m.id → r.status = .extracting → p r)
    (hstatus : ∀ r, (f r).status = .done ∨ (f r).status = .failed ∨ (f r).status = .queued) :
    Released (jobs.update p f hf) m.id := by
  intro j hj hid
  obtain ⟨r, hr, rfl⟩ := Table.mem_update.mp hj
  by_cases hpr : p r
  · rw [if_pos hpr]
    exact hstatus r
  · rw [if_neg hpr] at hid ⊢
    rcases h.status r hr hid with hqueued | hbusy | hdone | hfailed
    · exact .inr (.inr hqueued)
    · exact absurd (hp r hr hid hbusy) hpr
    · exact .inl hdone
    · exact .inr (.inl hfailed)

theorem stale (h : MemoryRow db.jobs m) : Released (markMemoryJobStale db m.id m.revision).jobs m.id := by
  dsimp only [markMemoryJobStale]
  apply h.released_update
  · intro r hr hid hextracting
    exact ⟨hid, h.revision r hr hid, hextracting ▸ DocumentState.isActive_extracting⟩
  · intro _
    exact .inr (.inl rfl)

theorem cached {result : String} {error : StorageError} (h : MemoryRow db.jobs m)
    (hcache : (cacheMemoryExtraction m result db).1 = .error error) :
    Released (cacheMemoryExtraction m result db).2.jobs m.id := by
  rcases cacheMemoryExtraction_cases m result db with ⟨_, heq⟩ | ⟨_, heq⟩
  · rw [heq] at hcache
    cases hcache
  · rw [heq]
    exact h.stale

theorem completed (h : MemoryRow db.jobs m) (hcomplete : completeMemoryJob m db = .ok db') :
    Released db'.jobs m.id := by
  rcases completeMemoryJob_ok hcomplete with ⟨_, rfl⟩ | ⟨_, _, rfl⟩
  · dsimp only
    apply h.released_update
    · intro r hr hid _
      exact ⟨hid, h.revision r hr hid⟩
    · intro _
      exact .inr (.inl rfl)
  · dsimp only [finishMemoryJob, Database.setDocumentStatus]
    apply h.released_update
    · intro r hr hid hextracting
      exact ⟨hid, h.revision r hr hid, hextracting⟩
    · intro _
      exact .inl rfl

theorem retried {errorKind error : String} {retryDelay : Option Nat} (h : MemoryRow db.jobs m)
    (hretry : retryMemoryJob now m errorKind error retryDelay db = .ok db') : Released db'.jobs m.id := by
  have hextracting : ∀ r ∈ db.jobs, r.id = m.id → r.status = .extracting →
      r.id = m.id ∧ r.revision = m.revision ∧ r.status = .extracting :=
    fun r hr hid hextracting => ⟨hid, h.revision r hr hid, hextracting⟩
  rcases retryMemoryJob_ok hretry with ⟨_, rfl⟩ | ⟨_, _, _, ⟨_, rfl⟩ | rfl⟩
  · exact h.stale
  · dsimp only [retriedJob]
    exact h.released_update hextracting fun _ => .inr (.inr rfl)
  · dsimp only [retriedJob, Database.setDocumentStatus]
    exact h.released_update hextracting fun _ => .inr (.inl rfl)

/-- A reconciliation that completes the job finds its row extracting, and there is only one. -/
theorem reconciled {batch : Batch} {expectedRevision : Option Nat} {proposals : List MemoryProposal}
    {records : List MemoryRecord}
    (hreconcile : reconcileMemoriesFor env now batch expectedRevision (some m.id) proposals db =
      .ok (records, db')) : Released db'.jobs m.id := by
  obtain ⟨source, _, _, _, t, _, _, hfinish⟩ := reconcileMemoriesFor_ok hreconcile
  rcases hfinish with ⟨hnone, _⟩ | ⟨jobId, hjobId, hfinish⟩
  · cases hnone
  · cases hjobId
    intro j hj hid
    exact .inl (finishReconciliation_done hfinish j hj hid).1

end MemoryRow

end Storage
