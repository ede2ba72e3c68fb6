-- SUMMARY: The rows of live handles stay claimed, so that every session keeps documents and jobs in agreement.
import Supermemory.Storage.Agreement
import Supermemory.Storage.CallEffects

/-!
# Live handles

The row of a live document handle is claimed, and the row of a live memory handle is
not queued, because a call only touches the row of its own handle, a row it claims,
rows that are new, and memory jobs that it fails.
-/

namespace Storage

variable {env : Env} {now : Time} {db db' : Database} {s : System}

/-- Which rows differ from those before: some of `target`, new ones, and memory jobs that were
    active and are failed now. -/
def Touches (env : Env) (db : Database) (target : String → Prop) (jobs : Table Job Job.id) : Prop :=
  ∀ j ∈ jobs, j ∈ db.jobs ∨ (target j.id ∧ ∃ i ∈ db.jobs, i.id = j.id) ∨ ¬ Drawn env db j.id ∨
    j.kind = .memory ∧ j.status = .failed ∧ ∃ i ∈ db.jobs, i.id = j.id ∧ i.status.IsActive

variable {target : String → Prop}

theorem Touches.of_eq {jobs : Table Job Job.id} (h : jobs = db.jobs) : Touches env db target jobs :=
  fun _ hj => .inl (h ▸ hj)

theorem Touches.update {p : Job → Prop} [DecidablePred p] {f : Job → Job} {hf : ∀ r, r.id = (f r).id}
    (hp : ∀ r ∈ db.jobs, p r → target r.id) : Touches env db target (db.jobs.update p f hf) := by
  intro j hj
  obtain ⟨r, hr, rfl⟩ := Table.mem_update.mp hj
  split
  · exact .inr (.inl ⟨hf r ▸ hp r hr ‹_›, r, hr, hf r⟩)
  · exact .inl hr

theorem not_drawn {n : Nat} (h : db.idsDrawn ≤ n) : ¬ Drawn env db (env.generateId n) := by
  rintro ⟨k, hk, he⟩
  exact absurd (env.generateId_injective he) (by omega)

theorem Touches.insertJob {dbu : Database} {documentId : String} {kind : JobKind} {revision : Nat}
    (h : Touches env db target dbu.jobs) (hdrawn : db.idsDrawn ≤ dbu.idsDrawn)
    (hinsert : dbu.insertJob env now documentId kind revision = .ok db') :
    Touches env db target db'.jobs := by
  obtain ⟨_, jobs, hins, rfl⟩ := insertJob_ok hinsert
  intro j hj
  rcases (Table.mem_insert hins).mp hj with hj | rfl
  · exact h j hj
  · exact .inr (.inr (.inl (not_drawn hdrawn)))

theorem touches_enqueue {dbu : Database} {id : String} {enqueued : Bool}
    (h : Touches env db target dbu.jobs) (hdrawn : db.idsDrawn ≤ dbu.idsDrawn)
    (henqueue : enqueueUnlessActive env now dbu id = .ok (enqueued, db')) :
    Touches env db target db'.jobs := by
  rcases enqueueUnlessActive_ok henqueue with ⟨_, rfl⟩ | ⟨_, _, _, _, hinsert⟩
  · exact h
  · exact h.insertJob hdrawn hinsert

theorem touches_upsertDocument {orgId : String} {input : UpsertDocument} {result : UpsertResult}
    (hupsert : upsertDocumentFor env now orgId input db = .ok (result, db')) :
    Touches env db target db'.jobs := by
  obtain ⟨_, _, ⟨existing, _, happly⟩ | hnew⟩ := upsertDocumentFor_ok hupsert
  · rcases applyExisting_ok happly with rfl | ⟨metadata, rfl⟩ | ⟨_, hrequeue⟩
    · exact .of_eq rfl
    · exact .of_eq rfl
    · obtain ⟨_, dbu, _, hupdate, henqueue⟩ := requeue_ok hrequeue
      have hr := updateFull_rewrites hupdate
      refine touches_enqueue (fun j hj => ?_) hr.idsDrawn.ge henqueue
      obtain ⟨i, hi, ⟨hid, _, hkind, _⟩, rfl | ⟨_, hmemory, hactive, hfailed⟩⟩ := hr.job j hj
      · exact .inl hi
      · exact .inr (.inr (.inr ⟨hkind.trans hmemory, hfailed, i, hi, hid.symm, hactive⟩))
  · obtain ⟨document, documents, _, _, _, _, _, henqueue⟩ := insertNew_ok hnew
    have hinserted : Touches env db target
        ({ db with documents, idsDrawn := db.idsDrawn + 1 } : Database).jobs := .of_eq rfl
    exact touches_enqueue hinserted (Nat.le_succ _) henqueue

theorem touches_publish {k : ClaimedJob} {chunks : List String} {schedule : Bool}
    (hk : target k.id) (hp : Publishes env now k chunks schedule db db') :
    Touches env db target db'.jobs := by
  obtain ⟨_, dbc, hsame, -, -, -, hcommit⟩ := hp
  have hfinish : Touches env db target (finishJob dbc k.id k.revision).jobs := by
    dsimp only [finishJob]
    rw [hsame.jobs]
    exact Touches.update fun r _ hr => hr.1 ▸ hk
  cases schedule with
  | false =>
    obtain rfl : db' = _ := hcommit
    exact hfinish
  | true =>
    obtain ⟨dbj, hinsert, rfl⟩ := hcommit
    have hscheduled : Touches env db target dbj.jobs := hfinish.insertJob hsame.idsDrawn hinsert
    exact hscheduled

theorem touches_retryMemoryJob {m : ClaimedMemoryJob} {errorKind error : String}
    {retryDelay : Option Nat} (hm : target m.id)
    (hretry : retryMemoryJob now m errorKind error retryDelay db = .ok db') :
    Touches env db target db'.jobs := by
  rcases retryMemoryJob_ok hretry with ⟨_, rfl⟩ | ⟨_, _, _, ⟨_, rfl⟩ | rfl⟩
  · dsimp only [markMemoryJobStale]
    exact Touches.update fun r _ hr => hr.1 ▸ hm
  · dsimp only [retriedJob]
    exact Touches.update fun r _ hr => hr.1 ▸ hm
  · dsimp only [retriedJob, Database.setDocumentStatus]
    exact Touches.update fun r _ hr => hr.1 ▸ hm

theorem touches_completeMemoryJob {m : ClaimedMemoryJob} (hm : target m.id)
    (hcomplete : completeMemoryJob m db = .ok db') : Touches env db target db'.jobs := by
  rcases completeMemoryJob_ok hcomplete with ⟨_, rfl⟩ | ⟨_, _, rfl⟩
  · dsimp only
    exact Touches.update fun r _ hr => hr.1 ▸ hm
  · dsimp only [finishMemoryJob, Database.setDocumentStatus]
    exact Touches.update fun r _ hr => hr.1 ▸ hm

theorem touches_cacheMemoryExtraction {m : ClaimedMemoryJob} {result : String} (hm : target m.id) :
    Touches env db target (cacheMemoryExtraction m result db).2.jobs := by
  rcases cacheMemoryExtraction_cases m result db with ⟨_, heq⟩ | ⟨_, heq⟩
  · rw [heq]
    dsimp only
    exact Touches.update fun r _ hr => hr.1 ▸ hm
  · rw [heq]
    dsimp only [markMemoryJobStale]
    exact Touches.update fun r _ hr => hr.1 ▸ hm

theorem touches_reconcileMemories {batch : Batch} {expectedRevision : Option Nat}
    {completion : Option ClaimedMemoryJob} {proposals : List MemoryProposal}
    {records : List MemoryRecord} (hm : ∀ m ∈ completion, target m.id)
    (hreconcile : reconcileMemoriesFor env now batch expectedRevision (completion.map (·.id)) proposals
      db = .ok (records, db')) : Touches env db target db'.jobs := by
  obtain ⟨source, _, _, _, t, hloop, _, hfinish⟩ := reconcileMemoriesFor_ok hreconcile
  have hjobs : t.db.jobs = db.jobs := (reconcileProposals_memoriesOnly hloop).jobs
  rcases hfinish with ⟨_, rfl⟩ | ⟨jobId, hjobId, hfinish⟩
  · exact .of_eq hjobs
  · obtain ⟨m, hcompletion, rfl⟩ := Option.map_eq_some_iff.mp hjobId
    obtain ⟨_, rfl⟩ := finishReconciliation_ok hfinish
    dsimp only [finishedReconciliation, Database.setDocumentStatus]
    rw [hjobs]
    exact Touches.update fun r _ hr => hr.1 ▸ hm m hcompletion

/-- The rows a call may touch: that of its handle, and that of the handle it returns. -/
def Call.Target (call : Call) (r : Except StorageError Answer) (id : String) : Prop :=
  (∃ k ∈ call.job, k.id = id) ∨ (∃ m ∈ call.memoryJob, m.id = id) ∨
    ∃ answer, r = .ok answer ∧ ((∃ k ∈ answer.job, k.id = id) ∨ ∃ m ∈ answer.memoryJob, m.id = id)

/-- What every call but opening touches. -/
theorem Call.touches {call : Call} (hopen : call ≠ .openStorage) :
    Touches env db (call.Target (call.run env now db).1) (call.run env now db).2.jobs := by
  have heffect := call.effect env now db
  generalize call.run env now db = r at heffect ⊢
  cases heffect with
  | failed | nothing => exact .of_eq rfl
  | upserted hr => exact touches_upsertDocument hr
  | @claimed k _ hr =>
    obtain ⟨_, _, _, _, _, _, _, _, _, rfl⟩ := claimJob_some hr
    dsimp only [startJob, Database.setDocumentStatus]
    exact Touches.update fun r _ hr => .inr (.inr ⟨_, rfl, .inl ⟨k, rfl, hr.1.symm⟩⟩)
  | @staged job _ _ hr =>
    obtain ⟨expected, _, _, _, rfl⟩ := markJobStage_ok hr
    dsimp only [advanceJob, Database.setDocumentStatus]
    exact Touches.update fun r _ hr => .inl ⟨job, rfl, hr.1.symm⟩
  | published hown _ _ hr => exact touches_publish (.inl ⟨_, hown, rfl⟩) (publishJob_ok hr)
  | @failedJob job _ =>
    dsimp only [Storage.failJob, Database.setDocumentStatus]
    exact Touches.update fun r _ hr => .inl ⟨job, rfl, hr.1.symm⟩
  | deletedEmpty => exact fun j hj => .inl (Table.mem_delete.mp hj).1
  | deleted => exact fun j hj => .inl (Table.mem_delete.mp hj).1
  | @claimedMemory m _ hr =>
    obtain ⟨_, _, _, _, _, _, _, _, _, _, _, rfl⟩ := claimMemoryJob_some hr
    dsimp only [startJob]
    exact Touches.update fun r _ hr => .inr (.inr ⟨_, rfl, .inr ⟨m, rfl, hr.1.symm⟩⟩)
  | @cached job _ => exact touches_cacheMemoryExtraction (.inr (.inl ⟨job, rfl, rfl⟩))
  | @completedMemory job _ hr => exact touches_completeMemoryJob (.inr (.inl ⟨job, rfl, rfl⟩)) hr
  | @retried job _ _ _ _ hr => exact touches_retryMemoryJob (.inr (.inl ⟨job, rfl, rfl⟩)) hr
  | reconciled hr => exact touches_reconcileMemories (fun m hm => .inr (.inl ⟨m, hm, rfl⟩)) hr
  | forgot hr =>
    obtain ⟨_, _, _, _, rfl⟩ := forgetMemoryFor_ok hr
    exact .of_eq rfl
  | opened => exact absurd rfl hopen

/-! ## Identifiers drawn -/

theorem idsDrawn_enqueue {id : String} {enqueued : Bool}
    (henqueue : enqueueUnlessActive env now db id = .ok (enqueued, db')) :
    db.idsDrawn ≤ db'.idsDrawn := by
  rcases enqueueUnlessActive_ok henqueue with ⟨_, rfl⟩ | ⟨_, _, _, _, hinsert⟩
  · exact le_refl _
  · obtain ⟨_, _, _, rfl⟩ := insertJob_ok hinsert
    exact Nat.le_succ _

theorem idsDrawn_upsertDocument {orgId : String} {input : UpsertDocument} {result : UpsertResult}
    (hupsert : upsertDocumentFor env now orgId input db = .ok (result, db')) :
    db.idsDrawn ≤ db'.idsDrawn := by
  obtain ⟨_, _, ⟨existing, _, happly⟩ | hnew⟩ := upsertDocumentFor_ok hupsert
  · rcases applyExisting_ok happly with rfl | ⟨metadata, rfl⟩ | ⟨_, hrequeue⟩
    · exact le_refl _
    · exact le_refl _
    · obtain ⟨_, dbu, _, hupdate, henqueue⟩ := requeue_ok hrequeue
      exact (updateFull_rewrites hupdate).idsDrawn.ge.trans (idsDrawn_enqueue henqueue)
  · obtain ⟨_, _, _, _, _, _, _, henqueue⟩ := insertNew_ok hnew
    exact (Nat.le_succ _).trans (idsDrawn_enqueue henqueue)

theorem idsDrawn_publish {k : ClaimedJob} {chunks : List String} {schedule : Bool}
    (hp : Publishes env now k chunks schedule db db') : db.idsDrawn ≤ db'.idsDrawn := by
  obtain ⟨_, dbc, hsame, -, -, -, hcommit⟩ := hp
  cases schedule with
  | false =>
    obtain rfl : db' = _ := hcommit
    exact hsame.idsDrawn
  | true =>
    obtain ⟨dbj, hinsert, rfl⟩ := hcommit
    obtain ⟨_, _, _, rfl⟩ := insertJob_ok hinsert
    exact hsame.idsDrawn.trans (Nat.le_succ _)

/-- No call forgets which identifiers were drawn. -/
theorem Call.idsDrawn_le (env : Env) (now : Time) (call : Call) (db : Database) :
    db.idsDrawn ≤ (call.run env now db).2.idsDrawn := by
  have heffect := call.effect env now db
  generalize call.run env now db = r at heffect ⊢
  cases heffect with
  | failed | nothing | failedJob | deletedEmpty | deleted => exact le_refl _
  | upserted hr => exact idsDrawn_upsertDocument hr
  | claimed hr =>
    obtain ⟨_, _, _, _, _, _, _, _, _, rfl⟩ := claimJob_some hr
    exact le_refl _
  | staged hr =>
    obtain ⟨_, _, _, _, rfl⟩ := markJobStage_ok hr
    exact le_refl _
  | published _ _ _ hr => exact idsDrawn_publish (publishJob_ok hr)
  | claimedMemory hr =>
    obtain ⟨_, _, _, _, _, _, _, _, _, _, _, rfl⟩ := claimMemoryJob_some hr
    exact le_refl _
  | @cached job result =>
    rcases cacheMemoryExtraction_cases job result db with ⟨_, heq⟩ | ⟨_, heq⟩
    · rw [heq]
    · rw [heq]
      exact le_refl _
  | completedMemory hr =>
    rcases completeMemoryJob_ok hr with ⟨_, rfl⟩ | ⟨_, _, rfl⟩
    · exact le_refl _
    · exact le_refl _
  | retried hr =>
    rcases retryMemoryJob_ok hr with ⟨_, rfl⟩ | ⟨_, _, _, ⟨_, rfl⟩ | rfl⟩
    · exact le_refl _
    · exact le_refl _
    · exact le_refl _
  | reconciled hr =>
    obtain ⟨_, _, _, _, t, hloop, _, hfinish⟩ := reconcileMemoriesFor_ok hr
    have hdrawn := (reconcileProposals_memoriesOnly hloop).idsDrawn
    rcases hfinish with ⟨_, rfl⟩ | ⟨jobId, _, hfinish⟩
    · exact hdrawn
    · obtain ⟨_, rfl⟩ := finishReconciliation_ok hfinish
      exact hdrawn
  | forgot hr =>
    obtain ⟨_, _, _, _, rfl⟩ := forgetMemoryFor_ok hr
    exact le_refl _
  | opened hr =>
    obtain ⟨_, _, hdrawn, rfl⟩ := openStorage_ok hr
    exact hdrawn

/-! ## Answers -/

theorem commit_map_ok {α : Type} {r : Except StorageError α} {f : α → Answer × Database}
    {answer : Answer} (h : (commit db (r.map f)).1 = .ok answer) : ∃ a, r = .ok a ∧ answer = (f a).1 := by
  cases r with
  | error e => cases h
  | ok a =>
    cases h
    exact ⟨a, rfl, rfl⟩

theorem commit_error {r : Except StorageError (Answer × Database)} {e : StorageError}
    (h : (commit db r).1 = .error e) : (commit db r).2 = db := by
  cases r with
  | error e => rfl
  | ok a => cases h

/-- A call that fails changes nothing, except that caching may fail the row. -/
theorem Call.run_error {call : Call} {e : StorageError} (hcache : ∀ m result, call ≠ .cacheMemoryExtraction m result)
    (h : (call.run env now db).1 = .error e) : (call.run env now db).2 = db := by
  cases call with
  | claimJob | failJob | deleteEmptyDocument | deleteDocument => cases h
  | cacheMemoryExtraction m result => exact absurd rfl (hcache m result)
  | _ => exact commit_error h

/-- Only `claim_job` returns a document handle. -/
theorem Call.answer_job {call : Call} {answer : Answer} {k : ClaimedJob}
    (h : (call.run env now db).1 = .ok answer) (hk : answer.job = some k) :
    call = .claimJob ∧ (Storage.claimJob now db).1 = some k := by
  cases call with
  | claimJob =>
    cases h
    exact ⟨rfl, hk⟩
  | failJob | deleteEmptyDocument | deleteDocument =>
    cases h
    cases hk
  | cacheMemoryExtraction job result =>
    simp only [Call.run] at h
    cases hr : (Storage.cacheMemoryExtraction job result db).1 with
    | error e =>
      rw [hr] at h
      cases h
    | ok _ =>
      rw [hr] at h
      cases h
      cases hk
  | _ =>
    obtain ⟨_, _, rfl⟩ := commit_map_ok h
    cases hk

/-- Only `claim_memory_job` returns a memory handle. -/
theorem Call.answer_memoryJob {call : Call} {answer : Answer} {m : ClaimedMemoryJob}
    (h : (call.run env now db).1 = .ok answer) (hm : answer.memoryJob = some m) :
    call = .claimMemoryJob ∧ ∃ db', Storage.claimMemoryJob now db = .ok (some m, db') := by
  cases call with
  | claimMemoryJob =>
    obtain ⟨⟨_, db'⟩, hr, rfl⟩ := commit_map_ok h
    cases hm
    exact ⟨rfl, db', hr⟩
  | claimJob | failJob | deleteEmptyDocument | deleteDocument =>
    cases h
    cases hm
  | cacheMemoryExtraction job result =>
    simp only [Call.run] at h
    cases hr : (Storage.cacheMemoryExtraction job result db).1 with
    | error e =>
      rw [hr] at h
      cases h
    | ok _ =>
      rw [hr] at h
      cases h
      cases hm
  | _ =>
    obtain ⟨_, _, rfl⟩ := commit_map_ok h
    cases hm

/-- The row of a handle that a call returns was queued before. -/
theorem Call.answer_queued {call : Call} {answer : Answer} {k : ClaimedJob}
    (hr : (call.run env now db).1 = .ok answer) (hk : answer.job = some k) :
    ∃ j ∈ db.jobs, j.id = k.id ∧ j.kind = .document ∧ j.status = .queued := by
  obtain ⟨_, hclaim⟩ := Call.answer_job hr hk
  obtain ⟨j, d, hj, _, _, hkind, hstatus, _, rfl, _⟩ :=
    claimJob_some (Prod.ext hclaim rfl : Storage.claimJob now db = (some k, _))
  exact ⟨j, hj, rfl, hkind, hstatus⟩

theorem Call.answer_memoryQueued {call : Call} {answer : Answer} {m : ClaimedMemoryJob}
    (hr : (call.run env now db).1 = .ok answer) (hm : answer.memoryJob = some m) :
    ∃ j ∈ db.jobs, j.id = m.id ∧ j.kind = .memory ∧ j.status = .queued := by
  obtain ⟨_, db', hclaim⟩ := Call.answer_memoryJob hr hm
  obtain ⟨j, d, hj, _, _, hkind, hstatus, _, hid, _⟩ := claimMemoryJob_some hclaim
  exact ⟨j, hj, hid.symm, hkind, hstatus⟩

/-- A call with a document handle that fails changes nothing; one that succeeds ends the handle's
    job, or advances its row to a claimed stage. -/
theorem Call.own_job {call : Call} {k : ClaimedJob} (env : Env) (now : Time) (db : Database)
    (h : call.job = some k) :
    (call.run env now db).2 = db ∨
    (∃ answer, (call.run env now db).1 = .ok answer ∧ call.ended = some k) ∨
    ∀ j ∈ (call.run env now db).2.jobs, j.id = k.id → j.status.IsClaimed := by
  cases hr : (call.run env now db).1 with
  | error e => exact .inl (Call.run_error (fun m result heq => by cases heq; cases h) hr)
  | ok answer =>
    cases call with
    | markJobStage job stage =>
      obtain rfl : job = k := Option.some_inj.mp h
      obtain ⟨db', hstage, _⟩ := commit_map_ok hr
      obtain ⟨expected, hexpected, ⟨i, hi, hiid, hirev, histatus⟩, _, rfl⟩ := markJobStage_ok hstage
      refine .inr (.inr fun j hj hjid => ?_)
      simp only [Call.run, hstage, commit, Except.map, advanceJob, Database.setDocumentStatus] at hj
      obtain ⟨r, hr, hrid, rfl⟩ := Table.of_mem_update hj
      obtain rfl := Table.eq_of_key hr hi (hrid.trans (hjid.trans hiid.symm))
      rw [if_pos ⟨hiid, hirev, histatus⟩]
      exact (expectedStage_claimed hexpected).1
    | completeJob | completeEmbeddedJob | completeEmbeddedJobWithMemoryExtraction | failJob
    | deleteEmptyDocument => exact .inr (.inl ⟨answer, rfl, h⟩)
    | _ => cases h

/-- A call with a memory handle that fails changes nothing, except that caching may fail the row;
    one that succeeds ends the handle's job or leaves its status. -/
theorem Call.own_memoryJob {call : Call} {m : ClaimedMemoryJob} (env : Env) (now : Time)
    (db : Database) (h : call.memoryJob = some m) :
    (call.run env now db).2 = db ∨
    (∃ answer, (call.run env now db).1 = .ok answer ∧ call.endedMemory = some m) ∨
    ∀ j ∈ (call.run env now db).2.jobs, j.id = m.id → j.status = .queued → ∃ i ∈ db.jobs,
      i.id = m.id ∧ i.status = .queued := by
  by_cases hcache : ∃ result, call = .cacheMemoryExtraction m result
  · obtain ⟨result, rfl⟩ := hcache
    refine .inr (.inr fun j hj hjid hqueued => ?_)
    dsimp only [Call.run] at hj
    rcases cacheMemoryExtraction_cases m result db with ⟨_, heq⟩ | ⟨_, heq⟩
    · rw [heq] at hj
      dsimp only at hj
      obtain ⟨r, hr, hrid, rfl⟩ := Table.of_mem_update hj
      refine ⟨r, hr, hrid.trans hjid, ?_⟩
      split at hqueued
      · exact hqueued
      · exact hqueued
    · rw [heq] at hj
      dsimp only [markMemoryJobStale] at hj
      obtain ⟨r, hr, hrid, rfl⟩ := Table.of_mem_update hj
      refine ⟨r, hr, hrid.trans hjid, ?_⟩
      split at hqueued
      · cases hqueued
      · exact hqueued
  · cases hr : (call.run env now db).1 with
    | error e =>
      refine .inl (Call.run_error (fun m' result heq => hcache ⟨result, ?_⟩) hr)
      cases heq
      cases h
      rfl
    | ok answer =>
      cases call with
      | cacheMemoryExtraction job result =>
        cases h
        exact absurd ⟨result, rfl⟩ hcache
      | completeMemoryJob | retryMemoryJob | reconcileMemories => exact .inr (.inl ⟨answer, rfl, h⟩)
      | _ => cases h

/-! ## The invariant of sessions -/

/-- Documents and jobs agree; the row of a live document handle is claimed, that of a live memory
    handle is not queued, and no two live handles have the same row. -/
structure Disciplined (s : Session) : Prop where
  agree : s.store.db.Agree
  issued : ∀ k ∈ s.live, k ∈ s.store.jobs
  issuedMemory : ∀ m ∈ s.liveMemory, m ∈ s.store.memoryJobs
  claimed : ∀ k ∈ s.live, ∀ j ∈ s.store.db.jobs, j.id = k.id → j.status.IsClaimed
  started : ∀ m ∈ s.liveMemory, ∀ j ∈ s.store.db.jobs, j.id = m.id → j.status ≠ .queued
  alone : ∀ k ∈ s.live, ∀ k' ∈ s.live, k'.id = k.id → k' = k
  aloneMemory : ∀ m ∈ s.liveMemory, ∀ m' ∈ s.liveMemory, m'.id = m.id → m' = m

namespace Disciplined

variable {s : Session} {call : Call}

/-- A call with live handles keeps documents and jobs in agreement. -/
theorem agree_after (h : Disciplined s) (hs : Consistent env s.store) (hlive : call.Live s) :
    (call.run env now s.store.db).2.Agree := by
  obtain ⟨hjob, hmemoryJob⟩ := hlive
  have hagree := h.agree
  have heffect := call.effect env now s.store.db
  generalize call.run env now s.store.db = r at heffect ⊢
  cases heffect with
  | failed | nothing => exact hagree
  | upserted hr => exact hagree.upsertDocument hs hr
  | claimed hr => exact hagree.claimJob hr
  | @staged job stage _ hr =>
    exact hagree.markJobStage hs (h.issued job (hjob job rfl)) (h.claimed job (hjob job rfl)) hr
  | @published _ job _ _ _ _ hown _ _ hr =>
    exact hagree.publish hs (h.issued job (hjob job hown)) (h.claimed job (hjob job hown)) (publishJob_ok hr)
  | @failedJob job _ => exact hagree.failJob hs (h.issued job (hjob job rfl)) (h.claimed job (hjob job rfl))
  | deletedEmpty => exact hagree.deleteDocument _
  | deleted => exact hagree.deleteDocument _
  | claimedMemory hr => exact hagree.claimMemoryJob hr
  | @cached job _ =>
    exact hagree.cacheMemoryExtraction hs (h.issuedMemory job (hmemoryJob job rfl))
      (h.started job (hmemoryJob job rfl))
  | @completedMemory job _ hr => exact hagree.completeMemoryJob hs (h.issuedMemory job (hmemoryJob job rfl)) hr
  | @retried job _ _ _ _ hr => exact hagree.retryMemoryJob hs (h.issuedMemory job (hmemoryJob job rfl)) hr
  | reconciled hr => exact hagree.reconcileMemories hr
  | forgot hr =>
    obtain ⟨_, _, _, _, rfl⟩ := forgetMemoryFor_ok hr
    exact hagree
  | opened hr => exact hagree.openStorage hs hr

/-- Opening succeeds with an answer that says so. -/
theorem run_openStorage (env : Env) (now : Time) (db : Database) :
    (Call.openStorage.run env now db).2 = db ∨
      ∃ id, (Call.openStorage.run env now db).1 = .ok (.opened id) := by
  simp only [Call.run]
  cases Storage.openStorage env now db with
  | error e => exact .inl rfl
  | ok r => exact .inr ⟨r.1, rfl⟩

theorem call_issued (h : Disciplined s) (hlive : call.Live s) : call.Issued s.store :=
  ⟨fun k hk => h.issued k (hlive.1 k hk), fun m hm => h.issuedMemory m (hlive.2 m hm)⟩

/-- A document handle that stays live keeps a claimed row. -/
theorem claimed_after (h : Disciplined s) (hs : Consistent env s.store) (hlive : call.Live s)
    {k : ClaimedJob} (hk : k ∈ s.live)
    (hkept : ∀ answer, (call.run env now s.store.db).1 = .ok answer →
      some k ≠ call.ended ∧ ∀ id, answer ≠ .opened id) :
    ∀ j ∈ (call.run env now s.store.db).2.jobs, j.id = k.id → j.status.IsClaimed := by
  intro j hj hid
  have hs' : Consistent env (s.store.after call (call.run env now s.store.db)) :=
    hs.after (h.call_issued hlive)
  have hdocument : j.kind = .document := by
    refine (hs'.handleRow k (System.mem_after_jobs (h.issued k hk)) j ?_ hid).1
    rwa [System.after_db]
  by_cases hopen : call = .openStorage
  · subst hopen
    rcases run_openStorage env now s.store.db with heq | ⟨id, heq⟩
    · exact h.claimed k hk j (heq ▸ hj) hid
    · exact absurd rfl ((hkept _ heq).2 id)
  rcases Call.touches hopen j hj with hsame | ⟨htarget, _⟩ | hfresh | ⟨hmemory, _⟩
  · exact h.claimed k hk j hsame hid
  · rcases htarget with ⟨k', hk', hid'⟩ | ⟨m, hm, hid'⟩ | ⟨answer, hr, ⟨k', hk', hid'⟩ | ⟨m, hm, hid'⟩⟩
    · -- the call's own handle
      obtain rfl := h.alone k hk k' (hlive.1 k' hk') (hid'.trans hid)
      rcases Call.own_job env now s.store.db hk' with heq | ⟨answer, hr, hended⟩ | hclaimed
      · exact h.claimed k' hk j (heq ▸ hj) hid
      · exact absurd hended.symm (hkept answer hr).1
      · exact hclaimed j hj hid
    · have hrow := (hs'.memoryHandleRow m (System.mem_after_memoryJobs (h.issuedMemory m (hlive.2 m hm)))
        j (by rwa [System.after_db]) hid'.symm).1
      rw [hdocument] at hrow
      cases hrow
    · obtain ⟨i, hi, hiid, _, hqueued⟩ := Call.answer_queued hr hk'
      have hclaimed := h.claimed k hk i hi (hiid.trans (hid'.trans hid))
      rw [hqueued] at hclaimed
      exact absurd hclaimed (by decide)
    · obtain ⟨i, hi, hiid, hkind, _⟩ := Call.answer_memoryQueued hr hm
      have hrow := (hs.handleRow k (h.issued k hk) i hi (hiid.trans (hid'.trans hid))).1
      rw [hkind] at hrow
      cases hrow
  · exact absurd (hid ▸ (hs.handleDrawn k (h.issued k hk)).1) hfresh
  · rw [hdocument] at hmemory
    cases hmemory

/-- A memory handle that stays live keeps a row that is not queued. -/
theorem started_after (h : Disciplined s) (hs : Consistent env s.store) (hlive : call.Live s)
    {m : ClaimedMemoryJob} (hm : m ∈ s.liveMemory)
    (hkept : ∀ answer, (call.run env now s.store.db).1 = .ok answer →
      some m ≠ call.endedMemory ∧ ∀ id, answer ≠ .opened id) :
    ∀ j ∈ (call.run env now s.store.db).2.jobs, j.id = m.id → j.status ≠ .queued := by
  intro j hj hid
  have hs' : Consistent env (s.store.after call (call.run env now s.store.db)) :=
    hs.after (h.call_issued hlive)
  have hmemory : j.kind = .memory := by
    refine (hs'.memoryHandleRow m (System.mem_after_memoryJobs (h.issuedMemory m hm)) j ?_ hid).1
    rwa [System.after_db]
  by_cases hopen : call = .openStorage
  · subst hopen
    rcases run_openStorage env now s.store.db with heq | ⟨id, heq⟩
    · exact h.started m hm j (heq ▸ hj) hid
    · exact absurd rfl ((hkept _ heq).2 id)
  rcases Call.touches hopen j hj with hsame | ⟨htarget, _⟩ | hfresh | ⟨_, hfailed, _⟩
  · exact h.started m hm j hsame hid
  · rcases htarget with ⟨k, hk, hid'⟩ | ⟨m', hm', hid'⟩ | ⟨answer, hr, ⟨k, hk, hid'⟩ | ⟨m', hm', hid'⟩⟩
    · have hrow := (hs'.handleRow k (System.mem_after_jobs (h.issued k (hlive.1 k hk))) j
        (by rwa [System.after_db]) hid'.symm).1
      rw [hmemory] at hrow
      cases hrow
    · -- the call's own handle
      obtain rfl := h.aloneMemory m hm m' (hlive.2 m' hm') (hid'.trans hid)
      rcases Call.own_memoryJob env now s.store.db hm' with heq | ⟨answer, hr, hended⟩ | hqueued
      · exact h.started m' hm j (heq ▸ hj) hid
      · exact absurd hended.symm (hkept answer hr).1
      · intro hj_queued
        obtain ⟨i, hi, hiid, hi_queued⟩ := hqueued j hj hid hj_queued
        exact h.started m' hm i hi hiid hi_queued
    · obtain ⟨i, hi, hiid, hkind, _⟩ := Call.answer_queued hr hk
      have hrow := (hs.memoryHandleRow m (h.issuedMemory m hm) i hi (hiid.trans (hid'.trans hid))).1
      rw [hkind] at hrow
      cases hrow
    · obtain ⟨i, hi, hiid, _, hqueued⟩ := Call.answer_memoryQueued hr hm'
      exact absurd hqueued (h.started m hm i hi (hiid.trans (hid'.trans hid)))
  · exact absurd (hid ▸ hs.memoryHandleDrawn m (h.issuedMemory m hm)) hfresh
  · rw [hfailed]
    nofun

/-- The row of a document handle that a call returns was started. -/
theorem extracting_new {answer : Answer} {k : ClaimedJob}
    (hr : (call.run env now db).1 = .ok answer) (hk : answer.job = some k) :
    ∀ j ∈ (call.run env now db).2.jobs, j.id = k.id → j.status = .extracting := by
  obtain ⟨rfl, hclaim⟩ := Call.answer_job hr hk
  obtain ⟨i, d, hi, _, _, _, hstatus, _, rfl, hdb⟩ :=
    claimJob_some (Prod.ext hclaim rfl : Storage.claimJob now db = (some k, _))
  intro j hj hid
  simp only [Call.run, hdb, startJob, Database.setDocumentStatus] at hj
  obtain ⟨r, hr, hrid, rfl⟩ := Table.of_mem_update hj
  obtain rfl := Table.eq_of_key hr hi (hrid.trans hid)
  rw [if_pos ⟨rfl, rfl, hstatus⟩]

theorem started_new {answer : Answer} {m : ClaimedMemoryJob}
    (hr : (call.run env now db).1 = .ok answer) (hm : answer.memoryJob = some m) :
    ∀ j ∈ (call.run env now db).2.jobs, j.id = m.id → j.status ≠ .queued := by
  obtain ⟨rfl, db', hclaim⟩ := Call.answer_memoryJob hr hm
  obtain ⟨i, d, hi, _, _, _, hstatus, _, hmid, _, hmrev, rfl⟩ := claimMemoryJob_some hclaim
  intro j hj hid
  simp only [Call.run, hclaim, Except.map, commit, startJob] at hj
  obtain ⟨r, hr, hrid, rfl⟩ := Table.of_mem_update hj
  obtain rfl := Table.eq_of_key hr hi (hrid.trans (hid.trans hmid))
  rw [if_pos ⟨hmid.symm, hmrev.symm, hstatus⟩]
  exact DocumentState.noConfusion

theorem issued_new {answer : Answer} {r : Except StorageError Answer × Database} {k : ClaimedJob}
    (hr : r.1 = .ok answer) (hk : answer.job = some k) : k ∈ (s.store.after call r).jobs := by
  obtain ⟨_, db⟩ := r
  subst hr
  cases answer with
  | claimed job =>
    obtain rfl : job = some k := hk
    exact List.mem_cons_self
  | _ => cases hk

theorem issued_new_memory {answer : Answer} {r : Except StorageError Answer × Database}
    {m : ClaimedMemoryJob} (hr : r.1 = .ok answer) (hm : answer.memoryJob = some m) :
    m ∈ (s.store.after call r).memoryJobs := by
  obtain ⟨_, db⟩ := r
  subst hr
  cases answer with
  | claimedMemory job =>
    obtain rfl : job = some m := hm
    exact List.mem_cons_self
  | _ => cases hm

/-- No live handle has the row of a handle that a call returns. -/
theorem ne_new (h : Disciplined s) {answer : Answer} {k k' : ClaimedJob}
    (hr : (call.run env now s.store.db).1 = .ok answer) (hk : answer.job = some k) (hk' : k' ∈ s.live) :
    k'.id ≠ k.id := by
  intro hid
  obtain ⟨j, hj, hjid, _, hqueued⟩ := Call.answer_queued hr hk
  have hclaimed := h.claimed k' hk' j hj (hjid.trans hid.symm)
  rw [hqueued] at hclaimed
  exact absurd hclaimed (by decide)

theorem ne_new_memory (h : Disciplined s) {answer : Answer} {m m' : ClaimedMemoryJob}
    (hr : (call.run env now s.store.db).1 = .ok answer) (hm : answer.memoryJob = some m)
    (hm' : m' ∈ s.liveMemory) : m'.id ≠ m.id := by
  intro hid
  obtain ⟨j, hj, hjid, _, hqueued⟩ := Call.answer_memoryQueued hr hm
  exact h.started m' hm' j hj (hjid.trans hid.symm) hqueued

/-- A call with live handles keeps the invariant. -/
theorem after (h : Disciplined s) (hs : Consistent env s.store) (hlive : call.Live s) :
    Disciplined (s.after call (call.run env now s.store.db)) := by
  constructor
  case agree => simpa [Session.after] using h.agree_after hs hlive
  case issued =>
    intro k hk
    rcases mem_liveAfter hk with ⟨answer, hr, hnew⟩ | ⟨hold, _⟩
    · exact issued_new hr hnew
    · exact System.mem_after_jobs (h.issued k hold)
  case issuedMemory =>
    intro m hm
    rcases mem_liveAfter hm with ⟨answer, hr, hnew⟩ | ⟨hold, _⟩
    · exact issued_new_memory hr hnew
    · exact System.mem_after_memoryJobs (h.issuedMemory m hold)
  case claimed =>
    intro k hk j hj hid
    simp only [Session.after, System.after_db] at hj
    rcases mem_liveAfter hk with ⟨answer, hr, hnew⟩ | ⟨hold, hkept⟩
    · exact .inl (extracting_new hr hnew j hj hid)
    · exact h.claimed_after hs hlive hold hkept j hj hid
  case started =>
    intro m hm j hj hid
    simp only [Session.after, System.after_db] at hj
    rcases mem_liveAfter hm with ⟨answer, hr, hnew⟩ | ⟨hold, hkept⟩
    · exact started_new hr hnew j hj hid
    · exact h.started_after hs hlive hold hkept j hj hid
  case alone => exact alone_liveAfter h.alone fun _ _ hr hk _ hk' => h.ne_new hr hk hk'
  case aloneMemory => exact alone_liveAfter h.aloneMemory fun _ _ hr hm _ hm' => h.ne_new_memory hr hm hm'

end Disciplined

/-- Every session is consistent and disciplined. -/
theorem disciplined_of_reachable {s : Session} (h : (sessions env).Reachable s) :
    Consistent env s.store ∧ Disciplined s := by
  refine h.invariant (I := fun s => Consistent env s.store ∧ Disciplined s) ?_ ?_
  · rintro s ⟨hempty, hlive, hliveMemory⟩
    refine ⟨.start hempty, ?_⟩
    obtain ⟨organizations, heq⟩ := hempty
    constructor <;> simp [heq, hlive, hliveMemory, Database.Agree, Agreement]
  · rintro s event s' _ ⟨hs, hd⟩ hstep
    obtain ⟨hlive, rfl⟩ := sessions_step.mp hstep
    exact ⟨hs.after (hd.call_issued hlive), hd.after hs hlive⟩

/-- In every session, the active jobs are at the revision of their document; a document in progress
    has exactly one and shows its status, and a document that is done or failed has none. -/
theorem documents_agree_with_jobs {s : Session} (h : (sessions env).Reachable s) :
    (∀ j ∈ s.store.db.jobs, j.status.IsActive →
      s.store.db.documentRevision j.documentId = some j.revision) ∧
    (∀ d ∈ s.store.db.documents,
      (d.status.IsActive → ∃! j, j ∈ s.store.db.jobs ∧ j.documentId = d.id ∧ j.status.IsActive) ∧
      ((d.status = .done ∨ d.status = .failed) →
        ∀ j ∈ s.store.db.jobs, j.documentId = d.id → ¬ j.status.IsActive) ∧
      (d.status.IsActive ∨ d.status = .done ∨ d.status = .failed)) ∧
    (∀ d ∈ s.store.db.documents, ∀ j ∈ s.store.db.jobs, j.documentId = d.id → j.status.IsActive →
      (j.kind = .document → d.status = j.status) ∧
      (j.kind = .memory → d.status = .indexing ∧ (j.status = .queued ∨ j.status = .extracting))) := by
  obtain ⟨hs, hd⟩ := disciplined_of_reachable h
  refine ⟨?_, ?_, ?_⟩
  · intro j hj hactive
    obtain ⟨d, hdoc, hown⟩ := hs.owner j hj
    obtain ⟨_, hrev, _⟩ := hd.agree.busy hdoc hj hown.symm hactive
    exact documentRevision_eq_some.mpr ⟨d, hdoc, hown, hrev.symm⟩
  · intro d hdoc
    rcases hd.agree d hdoc with ⟨hidle, hrest⟩ | ⟨j, hbusy, _, hshows⟩
    · refine ⟨fun hactive => ?_, fun _ => hidle, .inr hrest⟩
      rcases hrest with hrest | hrest
      · exact absurd (hrest ▸ hactive) DocumentState.not_isActive_done
      · exact absurd (hrest ▸ hactive) DocumentState.not_isActive_failed
    · have hactive := hshows.isActive hbusy.active
      refine ⟨fun _ => ?_, fun hrest => ?_, .inl hactive⟩
      · exact ⟨j, ⟨hbusy.mem, hbusy.owner, hbusy.active⟩, fun i hi => hbusy.only i hi.1 hi.2.1 hi.2.2⟩
      · rcases hrest with hrest | hrest
        · exact absurd (hrest ▸ hactive) DocumentState.not_isActive_done
        · exact absurd (hrest ▸ hactive) DocumentState.not_isActive_failed
  · intro d hdoc j hj hown hactive
    obtain ⟨_, _, hshows⟩ := hd.agree.busy hdoc hj hown hactive
    unfold Shows at hshows
    constructor
    · intro hkind
      rwa [hkind] at hshows
    · intro hkind
      rwa [hkind] at hshows

/-- The session after a list of calls, all made at the first instant of 2024. -/
def sessionAfter (calls : List Call) : Option Session :=
  (sessions unaryEnv).replay ⟨emptySystem, [], []⟩ (calls.map (63871286400, ·))

theorem sessionAfter_reachable {calls : List Call} {s : Session} (h : sessionAfter calls = some s) :
    (sessions unaryEnv).Reachable s := by
  have hempty : (sessions unaryEnv).Reachable ⟨emptySystem, [], []⟩ := .start ⟨⟨∅, rfl⟩, rfl, rfl⟩
  exact hempty.replay h

/-- One document is claimed and its stage advanced. -/
def chunkingSession : Option Session :=
  sessionAfter [.openStorage, .upsertDocument "" (upsertOf "a fact"), .claimJob,
    .markJobStage ⟨"xx", "x", "a fact", 1⟩ .chunking]

theorem documents_agree_with_jobs_chunking : ∃ s, chunkingSession = some s ∧
    ∃ d ∈ s.store.db.documents, d.status = .chunking ∧
      ∃! j, j ∈ s.store.db.jobs ∧ j.documentId = d.id ∧ j.status.IsActive := by
  obtain ⟨s, hs⟩ : ∃ s, chunkingSession = some s := Option.isSome_iff_exists.mp (by decide +kernel)
  have hchunking : ∀ s ∈ chunkingSession, ∃ d ∈ s.store.db.documents.rows, d.status = .chunking := by
    decide +kernel
  obtain ⟨d, hd, hstatus⟩ := hchunking s hs
  have hactive : d.status.IsActive := by
    rw [hstatus]
    decide
  exact ⟨s, hs, d, hd, hstatus,
    ((documents_agree_with_jobs (sessionAfter_reachable hs)).2.1 d hd).1 hactive⟩

end Storage
