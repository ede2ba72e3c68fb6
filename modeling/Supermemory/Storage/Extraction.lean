-- SUMMARY: The extraction of a memory job is published at most once, at the revision the job was made for.
import Supermemory.Storage.Discipline
import Supermemory.Storage.MemorySteps

/-!
# Extraction results

A memory job can be in several hands: opening the store queues it again while the worker
that claimed it still runs. Reconciling with a job to complete commits only if the row of
the job is extracting, and it makes that row done. A row that has ended never becomes
active again, and no new row takes its identifier, so the guard holds once.
-/

namespace Storage

variable {env : Env} {now : Time} {db db' : Database} {s s' : System} {call : Call}

-- ---------------------------------------------------------------------------
-- Spent jobs
-- ---------------------------------------------------------------------------

/-- The identifier was given to a memory job that has ended or is gone. -/
structure Spent (env : Env) (id : String) (db : Database) : Prop where
  drawn : Drawn env db id
  ended : ∀ j ∈ db.jobs, j.id = id → j.kind = .memory ∧ ¬ j.status.IsActive

theorem Spent.quiet {finished : String → Nat → Prop} {id : String} (h : Spent env id db)
    (hq : Quiet finished db db') : Spent env id db' where
  drawn := h.drawn.mono hq.idsDrawn
  ended j hj hid := by
    obtain ⟨i, hi, ⟨hsame, _, hkind, _⟩, hactive⟩ := hq.job j hj
    obtain ⟨hmemory, hended⟩ := h.ended i hi (hsame.symm.trans hid)
    exact ⟨hkind.trans hmemory, hended ∘ hactive⟩

/-- The documents that a call may make done, when it does not matter which. -/
abbrev anyDocument : String → Nat → Prop := fun _ _ => True

/-- A call with a memory handle makes no job active. -/
theorem Call.quiet_of_memoryJob {m : ClaimedMemoryJob} (hm : call.memoryJob = some m) :
    Quiet anyDocument db (call.run env now db).2 := by
  cases call with
  | cacheMemoryExtraction job result => exact Quiet.cacheMemoryExtraction
  | completeMemoryJob job =>
    simp only [Call.run]
    cases hr : Storage.completeMemoryJob job db with
    | error e => exact .refl db
    | ok db' =>
      rcases completeMemoryJob_ok hr with ⟨_, rfl⟩ | ⟨_, _, rfl⟩
      · exact Quiet.updateJobs (fun _ => ⟨rfl, rfl, rfl, rfl⟩) fun _ _ _ h =>
          absurd h DocumentState.not_isActive_failed
      · exact Quiet.finishMemoryJob.trans (Quiet.setDocumentStatus fun _ => trivial)
  | retryMemoryJob job errorKind error retryDelay =>
    simp only [Call.run]
    cases hr : Storage.retryMemoryJob now job errorKind error retryDelay db with
    | error e => exact .refl db
    | ok db' =>
      rcases retryMemoryJob_ok hr with ⟨_, rfl⟩ | ⟨_, _, _, ⟨_, rfl⟩ | rfl⟩
      · exact Quiet.markMemoryJobStale
      · exact Quiet.retriedJob
      · exact Quiet.retriedJob.trans (Quiet.setDocumentStatus fun h => by cases h)
  | reconcileMemories batch expectedRevision completion proposals =>
    simp only [Call.run]
    cases hr : reconcileMemoriesFor env now batch expectedRevision (completion.map (·.id)) proposals db with
    | error e => exact .refl db
    | ok r =>
      obtain ⟨_, _, _, _, t, hloop, _, hfinish⟩ := reconcileMemoriesFor_ok hr
      have hmemories : Quiet anyDocument db t.db := .memoriesOnly (reconcileProposals_memoriesOnly hloop)
      rcases hfinish with ⟨_, hdb⟩ | ⟨_, _, hfinish⟩
      · dsimp only [Except.map, commit]
        exact hdb ▸ hmemories
      · have hdb := (finishReconciliation_ok hfinish).2
        dsimp only [Except.map, commit]
        rw [hdb]
        exact hmemories.trans (Quiet.finishedReconciliation.trans (Quiet.setDocumentStatus fun _ => trivial))
  | _ => cases hm

/-- No call brings a spent job back. -/
theorem Spent.run {id : String} (h : Spent env id s.db) (hs : Consistent env s) (hissued : call.Issued s) :
    Spent env id (call.run env now s.db).2 := by
  by_cases hopen : call = .openStorage
  · subst hopen
    simp only [Call.run]
    cases hr : Storage.openStorage env now s.db with
    | error e => exact h
    | ok r =>
      have hq : Quiet never s.db r.2 := Quiet.openStorage hr
      exact h.quiet hq
  cases hm : call.memoryJob with
  | some m => exact h.quiet (Call.quiet_of_memoryJob hm)
  | none =>
    refine ⟨h.drawn.mono (call.idsDrawn_le env now s.db), fun j hj hid => ?_⟩
    rcases Call.touches hopen j hj with hsame | ⟨htarget, i, hi, hiid⟩ | hfresh | ⟨hkind, hfailed, _⟩
    · exact h.ended j hsame hid
    · obtain ⟨hmemory, hended⟩ := h.ended i hi (hiid.trans hid)
      -- the rows of document handles are of document jobs, and a claimed row was queued
      rcases htarget with ⟨k, hk, hkid⟩ | ⟨m, hm', _⟩ | ⟨answer, hr, ⟨k, hk, hkid⟩ | ⟨m, hm', hmid⟩⟩
      · have hdocument := (hs.handleRow k (hissued.1 k hk) i hi (hiid.trans hkid.symm)).1
        cases hmemory.symm.trans hdocument
      · cases hm.symm.trans hm'
      · obtain ⟨q, hq, hqid, _, hqueued⟩ := Call.answer_queued hr hk
        obtain rfl := Table.eq_of_key hq hi (hqid.trans (hkid.trans hiid.symm))
        exact absurd (hqueued ▸ DocumentState.isActive_queued) hended
      · obtain ⟨q, hq, hqid, _, hqueued⟩ := Call.answer_memoryQueued hr hm'
        obtain rfl := Table.eq_of_key hq hi (hqid.trans (hmid.trans hiid.symm))
        exact absurd (hqueued ▸ DocumentState.isActive_queued) hended
    · exact absurd (hid ▸ h.drawn) hfresh
    · rw [hfailed]
      exact ⟨hkind, DocumentState.not_isActive_failed⟩

-- ---------------------------------------------------------------------------
-- Publication
-- ---------------------------------------------------------------------------

/-- The job that a reconciliation is to complete. -/
def Call.completion : Call → Option ClaimedMemoryJob
  | .reconcileMemories _ _ completion _ => completion
  | _ => none

/-- The event reconciles memories with that job as the one to complete, and commits. -/
def PublishesExtraction (env : Env) (id : String) (s : System) (event : Time × Call) : Prop :=
  (event.2.completion.map (·.id)) = some id ∧ (event.2.run env event.1 s.db).1.isOk = true

instance (id : String) (s : System) (event : Time × Call) : Decidable (PublishesExtraction env id s event) :=
  inferInstanceAs (Decidable (_ ∧ _))

section Commit

variable {batch : Batch} {expectedRevision : Option Nat} {m : ClaimedMemoryJob}
  {proposals : List MemoryProposal} {records : List MemoryRecord}

/-- The row of the job and the document are both at the revision of the handle. -/
structure Publishable (m : ClaimedMemoryJob) (db : Database) : Prop where
  job : ∃ j ∈ db.jobs, j.id = m.id ∧ j.documentId = m.documentId ∧ j.revision = m.revision ∧
    j.status = .extracting
  document : db.documentRevision m.documentId = some m.revision

/-- A reconciliation that commits met the row of its job extracting, at the document's revision. -/
theorem Consistent.publishable (hs : Consistent env s) (hm : m ∈ s.memoryJobs)
    (hok : reconcileMemoriesFor env now batch expectedRevision (some m.id) proposals s.db =
      .ok (records, db')) : Publishable m s.db ∧ batch.documentId = m.documentId := by
  obtain ⟨source, hsource, hsourceId, _, t, hloop, _, ⟨hnone, _⟩ | ⟨jobId, hjobId, hfinish⟩⟩ :=
    reconcileMemoriesFor_ok hok
  · cases hnone
  · cases hjobId
    obtain ⟨⟨j, hj, hid, hdocument, hrevision, hextracting⟩, _⟩ := finishReconciliation_ok hfinish
    rw [(reconcileProposals_memoriesOnly hloop).jobs] at hj
    obtain ⟨_, hhandleDocument, hhandleRevision⟩ := hs.memoryHandleRow m hm j hj hid
    have hown : batch.documentId = m.documentId := hdocument.symm.trans hhandleDocument
    refine ⟨⟨⟨j, hj, hid, hhandleDocument, hhandleRevision, hextracting⟩, ?_⟩, hown⟩
    apply documentRevision_eq_some.mpr
    exact ⟨source, hsource, hsourceId.trans hown, hrevision.symm.trans hhandleRevision⟩

/-- It leaves the row done. -/
theorem Consistent.spends (hs : Consistent env s) (hm : m ∈ s.memoryJobs)
    (hok : reconcileMemoriesFor env now batch expectedRevision (some m.id) proposals s.db =
      .ok (records, db')) : Spent env m.id db' := by
  obtain ⟨source, _, _, _, t, hloop, _, ⟨hnone, _⟩ | ⟨jobId, hjobId, hfinish⟩⟩ := reconcileMemoriesFor_ok hok
  · cases hnone
  · cases hjobId
    have hmemories := reconcileProposals_memoriesOnly hloop
    have hdrawn : Drawn env s.db m.id := hs.memoryHandleDrawn m hm
    obtain ⟨_, hdb⟩ := finishReconciliation_ok hfinish
    refine ⟨hdrawn.mono (hdb ▸ hmemories.idsDrawn), fun j hj hid => ?_⟩
    obtain ⟨hdone, i, hi, hiid, hkind⟩ := finishReconciliation_done hfinish j hj hid
    rw [← hkind, hdone]
    exact ⟨(hs.memoryHandleRow m hm i (hmemories.jobs ▸ hi) hiid).1, DocumentState.not_isActive_done⟩

end Commit

theorem Call.completion_ok {id : String} {answer : Answer} (hid : call.completion.map (·.id) = some id)
    (hr : (call.run env now db).1 = .ok answer) :
    ∃ batch expectedRevision m proposals records db', m.id = id ∧ call.memoryJob = some m ∧
      reconcileMemoriesFor env now batch expectedRevision (some m.id) proposals db = .ok (records, db') ∧
      (call.run env now db).2 = db' := by
  cases call with
  | reconcileMemories batch expectedRevision completion proposals =>
    obtain ⟨m, hm, hmid⟩ := Option.map_eq_some_iff.mp hid
    obtain rfl : completion = some m := hm
    obtain ⟨⟨records, db'⟩, hok, _⟩ := commit_map_ok hr
    refine ⟨batch, expectedRevision, m, proposals, records, db', hmid, rfl, hok, ?_⟩
    simp only [Call.run, Option.map_some] at hok ⊢
    rw [hok]
    rfl
  | _ => cases hid

theorem PublishesExtraction.reconciles {id : String} {event : Time × Call}
    (h : PublishesExtraction env id s event) (hs : Consistent env s) (hissued : event.2.Issued s) :
    ¬ Spent env id s.db ∧ Spent env id (event.2.run env event.1 s.db).2 := by
  obtain ⟨hid, hok⟩ := h
  cases hr : (event.2.run env event.1 s.db).1 with
  | error e =>
    rw [hr] at hok
    cases hok
  | ok answer =>
    obtain ⟨_, _, m, _, _, db', rfl, hm, hreconcile, hdb⟩ := Call.completion_ok hid hr
    have hissued := hissued.2 m hm
    constructor
    · intro hspent
      obtain ⟨j, hj, hjid, _, _, hextracting⟩ := (hs.publishable hissued hreconcile).1.job
      exact (hspent.ended j hj hjid).2 (hextracting ▸ DocumentState.isActive_extracting)
    · rw [hdb]
      exact hs.spends hissued hreconcile

/-- In every run, at most one reconciliation with a given job to complete commits. One that commits
    finds the row of the job extracting and the document at the revision of the job. Any other one
    returns an error and leaves the database as it is. -/
theorem extraction_published_once (hs : (machine env).Reachable s) :
    (∀ id events, (machine env).occurrences (PublishesExtraction env id) s events ≤ 1) ∧
    ∀ now batch expectedRevision m proposals, m ∈ s.memoryJobs →
      let r := (Call.reconcileMemories batch expectedRevision (some m) proposals).run env now s.db
      (∃ records, r.1 = .ok (.reconciled records) ∧ Publishable m s.db ∧ batch.documentId = m.documentId) ∨
        ∃ e, r = (.error e, s.db) := by
  constructor
  · intro id events
    apply Machine.Reachable.occurrences_le_one (S := fun s => Spent env id s.db) _ _ _ hs
    · intro s event s' hs hspent hstep
      obtain ⟨hissued, rfl⟩ := machine_step.mp hstep
      rw [System.after_db]
      exact hspent.run (consistent_of_reachable hs) hissued
    · intro s event s' hs hspent hstep hp
      exact (hp.reconciles (consistent_of_reachable hs) (machine_step.mp hstep).1).1 hspent
    · intro s event s' hs hstep hp
      obtain ⟨hissued, rfl⟩ := machine_step.mp hstep
      rw [System.after_db]
      exact (hp.reconciles (consistent_of_reachable hs) hissued).2
  · intro now batch expectedRevision m proposals hm
    simp only [Call.run, Option.map_some]
    cases hr : reconcileMemoriesFor env now batch expectedRevision (some m.id) proposals s.db with
    | error e => exact .inr ⟨e, rfl⟩
    | ok r =>
      obtain ⟨hpublishable, hown⟩ := (consistent_of_reachable hs).publishable hm hr
      exact .inl ⟨r.1, rfl, hpublishable, hown⟩

/-- The store is opened again while a worker holds a memory job, and another worker claims it. -/
def claimedTwice : Option System :=
  let job : ClaimedJob := ⟨"xx", "x", "a fact", 1⟩
  afterCalls [.openStorage, .upsertDocument "" (upsertOf "a fact"), .claimJob, .markJobStage job .chunking,
    .markJobStage job .embedding, .completeEmbeddedJobWithMemoryExtraction job [] "model" 768,
    .claimMemoryJob, .openStorage, .claimMemoryJob]

/-- The memory job in the hands of the worker that claimed it at that attempt. -/
def memoryHandle (attempts : Nat) : ClaimedMemoryJob :=
  ⟨"xxx", "x", "a fact", 1, "", "tag", none, none, attempts⟩

def publishing (attempts : Nat) : Time × Call :=
  (63871286400, .reconcileMemories ⟨"", "x", "tag", "model", 1⟩ (some 1) (some (memoryHandle attempts))
    [proposalOf "a" "Tea." [] none])

/-- Of the reconciliations of both workers, one commits. -/
theorem extraction_published_once_claimedTwice : ∃ s, claimedTwice = some s ∧
    (machine unaryEnv).occurrences (PublishesExtraction unaryEnv "xxx") s [publishing 1, publishing 2] = 1 := by
  obtain ⟨s, hs⟩ : ∃ s, claimedTwice = some s := Option.isSome_iff_exists.mp (by decide +kernel)
  have hcommits : ∀ s ∈ claimedTwice,
      1 ≤ (machine unaryEnv).occurrences (PublishesExtraction unaryEnv "xxx") s [publishing 1, publishing 2] := by
    decide +kernel
  refine ⟨s, hs, Nat.le_antisymm ?_ (hcommits s hs)⟩
  exact (extraction_published_once (afterCalls_reachable hs)).1 "xxx" [publishing 1, publishing 2]

end Storage
