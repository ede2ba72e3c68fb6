-- SUMMARY: What a call that is no upsert does to a document row: it changes the status, and only as that call does.
import Supermemory.Storage.Agreement

/-!
# Status changes

Apart from upserts and deletions, a call changes nothing of a document row but its status.
Each call has its own status to set, and a document and a job row that it sets it for.
-/

namespace Storage

variable {env : Env} {now : Time} {db db' : Database}

/-- Nothing of a document changes but its status, and that only as `R` allows. -/
def Restates (R : Document → DocumentState → Prop) (db db' : Database) : Prop :=
  ∀ d' ∈ db'.documents, ∃ d ∈ db.documents, d' = { d with status := d'.status } ∧
    (d'.status = d.status ∨ R d d'.status)

namespace Restates

variable {R R' : Document → DocumentState → Prop}

theorem same (h : db'.documents = db.documents) : Restates R db db' :=
  fun d hd => ⟨d, h ▸ hd, rfl, .inl rfl⟩

theorem refl (db : Database) : Restates R db db := same rfl

/-- Documents are deleted. -/
theorem deleteDocument (id : String) : Restates R db (db.deleteDocument id) :=
  fun d hd => ⟨d, (Table.mem_delete.mp hd).1, rfl, .inl rfl⟩

theorem update {p : Document → Prop} [DecidablePred p] {status : DocumentState}
    (hrows : db'.documents.rows = db.documents.rows.map fun d => if p d then { d with status } else d)
    (hR : ∀ d ∈ db.documents, p d → R d status) : Restates R db db' := by
  intro d' hd'
  rw [← Table.mem_rows, hrows] at hd'
  obtain ⟨d, hd, rfl⟩ := List.mem_map.mp hd'
  refine ⟨d, hd, ?_⟩
  split
  · rename_i hp
    exact ⟨rfl, .inr (hR d hd hp)⟩
  · exact ⟨rfl, .inl rfl⟩

theorem setDocumentStatus {id : String} {revision : Nat} {status : DocumentState}
    (hsame : db'.documents = (db.setDocumentStatus id revision status).documents)
    (hR : ∀ d ∈ db.documents, d.id = id → d.revision = revision → R d status) : Restates R db db' :=
  update (p := fun d => d.id = id ∧ d.revision = revision) (congrArg Table.rows hsame)
    fun d hd hp => hR d hd hp.1 hp.2

end Restates

/-- A call sets the status of a document: which status, and on account of which rows. -/
inductive Call.Enacts (db : Database) : Call → Document → DocumentState → Prop
  | claimed {d : Document} {j : Job} (hj : j ∈ db.jobs) (hown : j.documentId = d.id) (hkind : j.kind = .document)
      (hqueued : j.status = .queued) : Enacts db .claimJob d .extracting
  | staged {d : Document} {job : ClaimedJob} {stage expected : DocumentState} {j : Job}
      (hexpected : expectedStage stage = some expected) (hj : j ∈ db.jobs) (hid : j.id = job.id)
      (hstatus : j.status = expected) (hown : d.id = job.documentId) : Enacts db (.markJobStage job stage) d stage
  | published {call : Call} {d : Document} {job : ClaimedJob} {status : DocumentState} (hjob : call.job = some job)
      (hpublished : call.published.isSome = true) (hown : d.id = job.documentId)
      (hstatus : status = .done ∨ status = .indexing) : Enacts db call d status
  | failed {d : Document} {job : ClaimedJob} {error : String} (hown : d.id = job.documentId) :
      Enacts db (.failJob job error) d .failed
  | completedMemory {d : Document} {m : ClaimedMemoryJob} {j : Job} (hj : j ∈ db.jobs) (hid : j.id = m.id)
      (hstatus : j.status = .extracting) (hown : d.id = m.documentId) : Enacts db (.completeMemoryJob m) d .done
  | retried {d : Document} {m : ClaimedMemoryJob} {errorKind error : String} {retryDelay : Option Nat} {j : Job}
      (hj : j ∈ db.jobs) (hid : j.id = m.id) (hstatus : j.status = .extracting) (hown : d.id = m.documentId) :
      Enacts db (.retryMemoryJob m errorKind error retryDelay) d .failed
  | reconciled {d : Document} {batch : Batch} {expectedRevision : Option Nat} {m : ClaimedMemoryJob}
      {proposals : List MemoryProposal} {j : Job} (hj : j ∈ db.jobs) (hid : j.id = m.id) (hown : j.documentId = d.id)
      (hstatus : j.status = .extracting) : Enacts db (.reconcileMemories batch expectedRevision (some m) proposals) d .done
  | requeued {d : Document} {j : Job} (hj : j ∈ db.jobs) (hown : j.documentId = d.id) (hkind : j.kind = .document)
      (hactive : j.status.IsActive) (hclaimed : d.status.IsClaimed) : Enacts db .openStorage d .queued
  | recovered {d : Document} {j : Job} (hj : j ∈ db.jobs) (hown : j.documentId = d.id) (hkind : j.kind = .memory)
      (hactive : j.status.IsActive) (hclaimed : d.status.IsClaimed) : Enacts db .openStorage d .indexing

/-- A job that is queued after the recovery of jobs was active before. -/
theorem active_of_recovered {j' : Job} (hj' : j' ∈ (failStaleMemoryJobs (requeueJobs now db)).jobs)
    (hqueued : j'.status = .queued) : ∃ j ∈ db.jobs, SameJob j j' ∧ j.status.IsActive := by
  dsimp only [failStaleMemoryJobs] at hj'
  obtain ⟨i, hi, _, rfl⟩ := Table.of_mem_update hj'
  obtain ⟨j, hj, rfl⟩ := mem_requeueJobs.mp hi
  split at hqueued
  · cases hqueued
  · rename_i hkept
    rw [if_neg hkept]
    refine ⟨j, hj, requeued_same now j, ?_⟩
    unfold requeued at hqueued
    split at hqueued
    · exact ‹j.status.IsClaimed›.isActive
    · exact hqueued ▸ DocumentState.isActive_queued

theorem openStorage_restates {orgId : String} (h : openStorage env now db = .ok (orgId, db')) :
    Restates (Call.Enacts db .openStorage) db db' := by
  obtain ⟨organizations, idsDrawn, _, rfl⟩ := openStorage_ok h
  set dbq := failStaleMemoryJobs (requeueJobs now { db with organizations, idsDrawn }) with hdbq
  have hjob {kind : JobKind} {d : Document} (hhas : hasQueuedJob dbq kind d) :
      ∃ j ∈ db.jobs, j.documentId = d.id ∧ j.kind = kind ∧ j.status.IsActive := by
    obtain ⟨j', hj', hown, _, hkind, hqueued⟩ := hhas
    obtain ⟨j, hj, ⟨_, hdoc, hsame, _⟩, hactive⟩ := active_of_recovered hj' hqueued
    exact ⟨j, hj, hdoc.symm.trans hown, hsame.symm.trans hkind, hactive⟩
  intro d₂ hd₂
  obtain ⟨d₁, hd₁, rfl⟩ := mem_recoverDocuments.mp hd₂
  obtain ⟨d, hd, rfl⟩ := mem_recoverDocuments.mp hd₁
  refine ⟨d, hd, ?_⟩
  by_cases hdocument : hasQueuedJob dbq .document d ∧ d.status.IsClaimed
  · -- a document that was queued again is not recovered a second time
    have hfirst : recovered dbq .document .queued d = { d with status := .queued } := if_pos hdocument
    have hsecond : recovered (recoverDocuments dbq .document .queued) .memory .indexing
        { d with status := .queued } = { d with status := .queued } :=
      if_neg fun hguard => absurd hguard.2 (by decide : ¬ DocumentState.queued.IsClaimed)
    rw [hfirst, hsecond]
    obtain ⟨j, hj, hown, hkind, hactive⟩ := hjob hdocument.1
    exact ⟨rfl, .inr (.requeued hj hown hkind hactive hdocument.2)⟩
  · have hfirst : recovered dbq .document .queued d = d := if_neg hdocument
    rw [hfirst]
    unfold recovered
    split
    · rename_i hmemory
      obtain ⟨j, hj, hown, hkind, hactive⟩ := hjob hmemory.1
      exact ⟨rfl, .inr (.recovered hj hown hkind hactive hmemory.2)⟩
    · exact ⟨rfl, .inl rfl⟩

/-- A call that is no upsert changes statuses, and each call in its own way. -/
theorem Call.restates {call : Call} (hupsert : ∀ orgId input, call ≠ .upsertDocument orgId input) :
    Restates (call.Enacts db) db (call.run env now db).2 := by
  have heffect := call.effect env now db
  generalize call.run env now db = r at heffect ⊢
  cases heffect with
  | failed | nothing => exact .refl db
  | @upserted orgId input => exact absurd rfl (hupsert orgId input)
  | claimed hr =>
    obtain ⟨j, d, hj, hd, hown, hkind, hqueued, _, rfl, rfl⟩ := claimJob_some hr
    apply Restates.setDocumentStatus rfl
    intro d' _ hid _
    exact .claimed hj (hown.symm.trans hid.symm) hkind hqueued
  | staged hr =>
    obtain ⟨expected, hexpected, ⟨j, hj, hid, _, hstatus⟩, _, rfl⟩ := markJobStage_ok hr
    apply Restates.setDocumentStatus rfl
    intro d' _ hown _
    exact .staged hexpected hj hid hstatus hown
  | @published _ job _ _ schedule _ hjob hpublished _ hr =>
    apply Restates.setDocumentStatus (publishJob_ok hr).document.1
    intro d' _ hown _
    refine .published hjob (by rw [hpublished]; rfl) hown ?_
    cases schedule with
    | false => exact .inl rfl
    | true => exact .inr rfl
  | failedJob =>
    apply Restates.setDocumentStatus rfl
    intro d' _ hown _
    exact .failed hown
  | deletedEmpty => exact .deleteDocument _
  | deleted => exact .deleteDocument _
  | claimedMemory hr =>
    obtain ⟨_, _, _, _, _, _, _, _, _, _, _, rfl⟩ := claimMemoryJob_some hr
    exact .same rfl
  | @cached job result =>
    rcases cacheMemoryExtraction_cases job result db with ⟨_, heq⟩ | ⟨_, heq⟩
    · rw [heq]
      exact .same rfl
    · rw [heq]
      exact .same rfl
  | completedMemory hr =>
    rcases completeMemoryJob_ok hr with ⟨_, rfl⟩ | ⟨_, ⟨j, hj, hid, _, hstatus⟩, rfl⟩
    · exact .same rfl
    · apply Restates.setDocumentStatus rfl
      intro d' _ hown _
      exact .completedMemory hj hid hstatus hown
  | retried hr =>
    rcases retryMemoryJob_ok hr with ⟨_, rfl⟩ | ⟨_, ⟨j, hj, hid, _, hstatus⟩, _, ⟨_, rfl⟩ | rfl⟩
    · exact .same rfl
    · exact .same rfl
    · apply Restates.setDocumentStatus rfl
      intro d' _ hown _
      exact .retried hj hid hstatus hown
  | @reconciled batch _ completion _ _ _ hr =>
    obtain ⟨source, _, hsource, _, t, hloop, _, hfinish⟩ := reconcileMemoriesFor_ok hr
    have hmemories : MemoriesOnly db t.db := reconcileProposals_memoriesOnly hloop
    rcases hfinish with ⟨_, rfl⟩ | ⟨jobId, hjobId, hfinish⟩
    · exact .same hmemories.documents
    · obtain ⟨m, rfl, rfl⟩ := Option.map_eq_some_iff.mp hjobId
      obtain ⟨⟨j, hj, hid, hdoc, _, hstatus⟩, rfl⟩ := finishReconciliation_ok hfinish
      have hrows : ((finishedReconciliation t.db m.id batch.documentId source.revision).setDocumentStatus
          batch.documentId source.revision .done).documents =
          (db.setDocumentStatus batch.documentId source.revision .done).documents := by
        dsimp only [finishedReconciliation, Database.setDocumentStatus]
        rw [hmemories.documents]
      apply Restates.setDocumentStatus hrows
      intro d' _ hown _
      exact .reconciled (hmemories.jobs ▸ hj) hid (hdoc.trans hown.symm) hstatus
  | forgot hr =>
    obtain ⟨_, _, _, _, rfl⟩ := forgetMemoryFor_ok hr
    exact .same rfl
  | opened hr => exact openStorage_restates hr

end Storage
