-- SUMMARY: What a call does to a job row: it claims it, or changes it without counting an attempt, and rarely queues it.
import Supermemory.Storage.Agreement
import Supermemory.Storage.Discipline

/-!
# Job rows

A call counts an attempt of the row whose handle it returns, and of no other one. Only a
retry and the opening of the database put a row back into the queue.
-/

namespace Storage

variable {env : Env} {now : Time} {db db' : Database} {call : Call} {i j : Job}

/-- The job that an answer hands out. -/
def Answer.handed : Answer → Option (JobKind × String)
  | .claimed job => job.map fun job => (.document, job.id)
  | .claimedMemory job => job.map fun job => (.memory, job.id)
  | _ => none

/-- The job that a call hands out. -/
def handedBy (r : Except StorageError Answer) : Option (JobKind × String) := r.toOption.bind Answer.handed

/-- The call may queue the row of the job again. -/
def Call.Requeues (call : Call) (id : String) : Prop :=
  match call with
  | .retryMemoryJob job _ _ _ => job.id = id ∧ job.attempts < maxAttempts
  | .openStorage => True
  | _ => False

/-- How the row of a job changes under a call: it is claimed, or no attempt is counted. -/
inductive Moves (call : Call) (r : Except StorageError Answer) (i j : Job) : Prop
  | claimed (hhanded : handedBy r = some (i.kind, i.id)) (hqueued : i.status = .queued) (hstatus : j.status = .extracting)
      (hattempts : j.attempts = i.attempts + 1)
  | kept (hhanded : handedBy r ≠ some (i.kind, i.id)) (hattempts : j.attempts = i.attempts)
      (hqueued : j.status = .queued → i.status = .queued ∨ call.Requeues i.id)

/-- The rows after a call: new ones, which were never claimed, and moved ones. -/
def MovesRows (env : Env) (call : Call) (r : Except StorageError Answer) (db : Database) (jobs : Table Job Job.id) : Prop :=
  ∀ j ∈ jobs, (¬ Drawn env db j.id ∧ j.attempts = 0) ∨
    ∃ i ∈ db.jobs, i.id = j.id ∧ i.kind = j.kind ∧ Moves call r i j

namespace MovesRows

variable {r : Except StorageError Answer}

/-- A row that is the same. -/
theorem same (hnone : handedBy r = none) : Moves call r j j :=
  .kept (by rw [hnone]; exact nofun) rfl .inl

theorem of_sub {jobs : Table Job Job.id} (hnone : handedBy r = none) (h : ∀ j ∈ jobs, j ∈ db.jobs) :
    MovesRows env call r db jobs :=
  fun j hj => .inr ⟨j, h j hj, rfl, rfl, same hnone⟩

theorem of_eq {jobs : Table Job Job.id} (hnone : handedBy r = none) (h : jobs = db.jobs) :
    MovesRows env call r db jobs := of_sub hnone fun _ hj => h ▸ hj

/-- Rows are updated, and none of them is queued unless the call may do that. -/
theorem update {p : Job → Prop} [DecidablePred p] {f : Job → Job} {hf : ∀ j, j.id = (f j).id}
    (hnone : handedBy r = none) (hkind : ∀ j, (f j).kind = j.kind) (hattempts : ∀ j, (f j).attempts = j.attempts)
    (hqueued : ∀ j ∈ db.jobs, p j → (f j).status = .queued → j.status = .queued ∨ call.Requeues j.id) :
    MovesRows env call r db (db.jobs.update p f hf) := by
  intro j hj
  obtain ⟨i, hi, rfl⟩ := Table.mem_update.mp hj
  split
  · rename_i hp
    exact .inr ⟨i, hi, hf i, (hkind i).symm, .kept (by rw [hnone]; exact nofun) (hattempts i) (hqueued i hi hp)⟩
  · exact .inr ⟨i, hi, rfl, rfl, same hnone⟩

theorem insertJob {dbu : Database} {documentId : String} {kind : JobKind} {revision : Nat}
    (h : MovesRows env call r db dbu.jobs) (hdrawn : db.idsDrawn ≤ dbu.idsDrawn)
    (hinsert : dbu.insertJob env now documentId kind revision = .ok db') : MovesRows env call r db db'.jobs := by
  obtain ⟨_, jobs, hins, rfl⟩ := insertJob_ok hinsert
  intro j hj
  rcases (Table.mem_insert hins).mp hj with hj | rfl
  · exact h j hj
  · exact .inl ⟨not_drawn hdrawn, rfl⟩

theorem enqueue {dbu : Database} {id : String} {enqueued : Bool} (h : MovesRows env call r db dbu.jobs)
    (hdrawn : db.idsDrawn ≤ dbu.idsDrawn) (henqueue : enqueueUnlessActive env now dbu id = .ok (enqueued, db')) :
    MovesRows env call r db db'.jobs := by
  rcases enqueueUnlessActive_ok henqueue with ⟨_, rfl⟩ | ⟨_, _, _, _, hinsert⟩
  · exact h
  · exact h.insertJob hdrawn hinsert

theorem upsertDocument {orgId : String} {input : UpsertDocument} {result : UpsertResult} (hnone : handedBy r = none)
    (hupsert : upsertDocumentFor env now orgId input db = .ok (result, db')) : MovesRows env call r db db'.jobs := by
  obtain ⟨_, _, ⟨existing, _, happly⟩ | hnew⟩ := upsertDocumentFor_ok hupsert
  · rcases applyExisting_ok happly with rfl | ⟨metadata, rfl⟩ | ⟨_, hrequeue⟩
    · exact .of_eq hnone rfl
    · exact .of_eq hnone rfl
    · obtain ⟨_, dbu, _, hupdate, henqueue⟩ := requeue_ok hrequeue
      have hrows : MovesRows env call r db dbu.jobs := by
        obtain rfl := updateFull_ok hupdate
        dsimp only [markMemoryJobsStale]
        exact update hnone (fun _ => rfl) (fun _ => rfl) fun _ _ _ hqueued => by cases hqueued
      exact hrows.enqueue (updateFull_rewrites hupdate).idsDrawn.ge henqueue
  · obtain ⟨document, documents, _, _, _, _, _, henqueue⟩ := insertNew_ok hnew
    have hinserted : MovesRows env call r db ({ db with documents, idsDrawn := db.idsDrawn + 1 } : Database).jobs :=
      .of_eq hnone rfl
    exact hinserted.enqueue (Nat.le_succ _) henqueue

theorem publish {job : ClaimedJob} {chunks : List String} {schedule : Bool} (hnone : handedBy r = none)
    (hp : Publishes env now job chunks schedule db db') : MovesRows env call r db db'.jobs := by
  obtain ⟨_, dbc, hsame, -, -, -, hcommit⟩ := hp
  have hfinish : MovesRows env call r db (finishJob dbc job.id job.revision).jobs := by
    dsimp only [finishJob]
    rw [hsame.jobs]
    exact update hnone (fun _ => rfl) (fun _ => rfl) fun _ _ _ hqueued => by cases hqueued
  cases schedule with
  | false =>
    obtain rfl : db' = _ := hcommit
    exact hfinish
  | true =>
    obtain ⟨dbj, hinsert, rfl⟩ := hcommit
    have hscheduled : MovesRows env call r db dbj.jobs := hfinish.insertJob hsame.idsDrawn hinsert
    exact hscheduled

/-- The row that is claimed was queued, and no other one is touched. -/
theorem startJob {id : String} (hhanded : handedBy r = some (j.kind, id)) (hj : j ∈ db.jobs) (hid : j.id = id)
    (hqueued : j.status = .queued) : MovesRows env call r db (startJob db id j.revision).jobs := by
  intro j' hj'
  dsimp only [Storage.startJob] at hj'
  obtain ⟨i, hi, rfl⟩ := Table.mem_update.mp hj'
  split
  · rename_i hguard
    obtain rfl := Table.eq_of_key hi hj (hguard.1.trans hid.symm)
    exact .inr ⟨i, hi, rfl, rfl, .claimed (hguard.1.symm ▸ hhanded) hguard.2.2 rfl rfl⟩
  · rename_i hguard
    refine .inr ⟨i, hi, rfl, rfl, .kept ?_ rfl .inl⟩
    rw [hhanded]
    intro hsame
    have hother : i.id = id := (congrArg Prod.snd (Option.some_inj.mp hsame)).symm
    obtain rfl := Table.eq_of_key hi hj (hother.trans hid.symm)
    exact hguard ⟨hid, rfl, hqueued⟩

theorem markMemoryJobStale {id : String} {revision : Nat} (hnone : handedBy r = none) :
    MovesRows env call r db (markMemoryJobStale db id revision).jobs := by
  dsimp only [Storage.markMemoryJobStale]
  exact update hnone (fun _ => rfl) (fun _ => rfl) fun _ _ _ hqueued => by cases hqueued

/-- A handle of the last attempt puts nothing back into the queue. -/
theorem retryMemoryJob {job : ClaimedMemoryJob} {errorKind error : String} {retryDelay : Option Nat}
    (hnone : handedBy r = none) (hretry : retryMemoryJob now job errorKind error retryDelay db = .ok db') :
    MovesRows env (.retryMemoryJob job errorKind error retryDelay) r db db'.jobs := by
  rcases retryMemoryJob_ok hretry with ⟨_, rfl⟩ | ⟨_, _, _, ⟨hattempts, rfl⟩ | rfl⟩
  · exact markMemoryJobStale hnone
  · dsimp only [retriedJob]
    exact update hnone (fun _ => rfl) (fun _ => rfl) fun _ _ hguard _ => .inr ⟨hguard.1.symm, hattempts⟩
  · dsimp only [retriedJob, Database.setDocumentStatus]
    exact update hnone (fun _ => rfl) (fun _ => rfl) fun _ _ _ hqueued => by cases hqueued

theorem completeMemoryJob {job : ClaimedMemoryJob} (hnone : handedBy r = none)
    (hcomplete : completeMemoryJob job db = .ok db') : MovesRows env call r db db'.jobs := by
  rcases completeMemoryJob_ok hcomplete with ⟨_, rfl⟩ | ⟨_, _, rfl⟩
  · dsimp only
    exact update hnone (fun _ => rfl) (fun _ => rfl) fun _ _ _ hqueued => by cases hqueued
  · dsimp only [finishMemoryJob, Database.setDocumentStatus]
    exact update hnone (fun _ => rfl) (fun _ => rfl) fun _ _ _ hqueued => by cases hqueued

theorem cacheMemoryExtraction {job : ClaimedMemoryJob} {result : String} (hnone : handedBy r = none) :
    MovesRows env call r db (cacheMemoryExtraction job result db).2.jobs := by
  rcases cacheMemoryExtraction_cases job result db with ⟨_, heq⟩ | ⟨_, heq⟩
  · rw [heq]
    dsimp only
    exact update hnone (fun _ => rfl) (fun _ => rfl) fun _ _ _ hqueued => .inl hqueued
  · rw [heq]
    exact markMemoryJobStale hnone

theorem reconcileMemories {batch : Batch} {expectedRevision : Option Nat} {completion : Option String}
    {proposals : List MemoryProposal} {records : List MemoryRecord} (hnone : handedBy r = none)
    (hreconcile : reconcileMemoriesFor env now batch expectedRevision completion proposals db = .ok (records, db')) :
    MovesRows env call r db db'.jobs := by
  obtain ⟨source, _, _, _, t, hloop, _, hfinish⟩ := reconcileMemoriesFor_ok hreconcile
  have hjobs : t.db.jobs = db.jobs := (reconcileProposals_memoriesOnly hloop).jobs
  rcases hfinish with ⟨_, rfl⟩ | ⟨jobId, _, hfinish⟩
  · exact .of_eq hnone hjobs
  · obtain ⟨_, rfl⟩ := finishReconciliation_ok hfinish
    dsimp only [finishedReconciliation, Database.setDocumentStatus]
    rw [hjobs]
    exact update hnone (fun _ => rfl) (fun _ => rfl) fun _ _ _ hqueued => by cases hqueued

/-- Opening the database queues rows and counts nothing. -/
theorem openStorage {orgId : String} (hnone : handedBy r = none) (hopen : openStorage env now db = .ok (orgId, db')) :
    MovesRows env .openStorage r db db'.jobs := by
  obtain ⟨organizations, idsDrawn, _, rfl⟩ := openStorage_ok hopen
  intro j hj
  dsimp only [recoverDocuments, failStaleMemoryJobs] at hj
  obtain ⟨k, hk, _, rfl⟩ := Table.of_mem_update hj
  obtain ⟨i, hi, rfl⟩ := mem_requeueJobs.mp hk
  obtain ⟨hid, _, hkind, _⟩ := requeued_same now i
  have hattempts : (requeued now i).attempts = i.attempts := by
    unfold requeued
    split <;> rfl
  refine .inr ⟨i, hi, ?_⟩
  split
  · exact ⟨hid.symm, hkind.symm, .kept (by rw [hnone]; exact nofun) hattempts fun _ => .inr trivial⟩
  · exact ⟨hid.symm, hkind.symm, .kept (by rw [hnone]; exact nofun) hattempts fun _ => .inr trivial⟩

end MovesRows

/-- What every call does to the job rows. -/
theorem Call.movesRows (env : Env) (now : Time) (call : Call) (db : Database) :
    MovesRows env call (call.run env now db).1 db (call.run env now db).2.jobs := by
  have heffect := call.effect env now db
  generalize call.run env now db = r at heffect ⊢
  cases heffect with
  | failed => exact .of_eq rfl rfl
  | @nothing _ answer hjob hmemoryJob _ =>
    apply MovesRows.of_eq _ rfl
    cases answer with
    | claimed job =>
      obtain rfl : job = none := hjob
      rfl
    | claimedMemory job =>
      obtain rfl : job = none := hmemoryJob
      rfl
    | _ => rfl
  | upserted hr => exact .upsertDocument rfl hr
  | claimed hr =>
    obtain ⟨j, d, hj, _, _, hkind, hqueued, _, rfl, rfl⟩ := claimJob_some hr
    exact .startJob (by rw [hkind]; rfl) hj rfl hqueued
  | staged hr =>
    obtain ⟨expected, hexpected, _, _, rfl⟩ := markJobStage_ok hr
    dsimp only [advanceJob, Database.setDocumentStatus]
    refine .update rfl (fun _ => rfl) (fun _ => rfl) fun _ _ _ hqueued => ?_
    obtain rfl : _ = DocumentState.queued := hqueued
    cases hexpected
  | published _ _ _ hr => exact .publish rfl (publishJob_ok hr)
  | failedJob =>
    dsimp only [Storage.failJob, Database.setDocumentStatus]
    exact .update rfl (fun _ => rfl) (fun _ => rfl) fun _ _ _ hqueued => by cases hqueued
  | deletedEmpty => exact .of_sub rfl fun j hj => (Table.mem_delete.mp hj).1
  | deleted => exact .of_sub rfl fun j hj => (Table.mem_delete.mp hj).1
  | claimedMemory hr =>
    obtain ⟨j, d, hj, _, _, hkind, hqueued, _, hid, _, hrevision, rfl⟩ := claimMemoryJob_some hr
    rw [hrevision]
    exact .startJob (by rw [hkind]; rfl) hj hid.symm hqueued
  | @cached job result =>
    apply MovesRows.cacheMemoryExtraction
    cases (Storage.cacheMemoryExtraction job result db).1 <;> rfl
  | completedMemory hr => exact .completeMemoryJob rfl hr
  | retried hr => exact .retryMemoryJob rfl hr
  | reconciled hr => exact .reconcileMemories rfl hr
  | forgot hr =>
    obtain ⟨_, _, _, _, rfl⟩ := forgetMemoryFor_ok hr
    exact .of_eq rfl rfl
  | opened hr => exact .openStorage rfl hr

end Storage
