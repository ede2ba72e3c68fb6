-- SUMMARY: The declared lifecycle of a document, and the status changes of every session that take another way.
import Supermemory.Storage.Discipline
import Supermemory.Storage.Search
import Supermemory.Storage.StatusSteps

/-!
# The lifecycle of a document

The lifecycle is declared once, as a table of transitions that no operation consults. In a
session most operations move a document along the table. An upsert of a document that has
been indexed, the recovery of an interrupted one, and a publication before the last stage do not.
-/

namespace Storage

variable {env : Env} {now : Time} {db' : Database} {s s' : Session} {d d' : Document}

-- ---------------------------------------------------------------------------
-- The table
-- ---------------------------------------------------------------------------

/-- A rejected document lifecycle transition. -/
structure TransitionError where
  «from» : DocumentState
  «to» : DocumentState
  deriving DecidableEq, Repr

/-- Moves to `next` when the persisted lifecycle permits that edge. -/
def DocumentState.transition (state next : DocumentState) : Except TransitionError DocumentState :=
  match state, next with
  | unknown, queued | failed, queued
  | queued, extracting
  | extracting, chunking
  | chunking, embedding
  | embedding, indexing
  | indexing, done
  | queued, failed | extracting, failed | chunking, failed | embedding, failed | indexing, failed => .ok next
  | _, _ => .error { «from» := state, «to» := next }

/-- The lifecycle permits the edge. -/
def DocumentState.Permits (state next : DocumentState) : Prop := (state.transition next).isOk = true

instance (state next : DocumentState) : Decidable (state.Permits next) := inferInstanceAs (Decidable (_ = _))

/-- The next stage of a claimed job is permitted. -/
theorem permits_stage {stage expected : DocumentState} (h : expectedStage stage = some expected) :
    expected.Permits stage := by
  cases stage with
  | chunking | embedding | indexing =>
    cases h
    rfl
  | _ => cases h

/-- A claimed document may fail. -/
theorem permits_failed {state : DocumentState} (h : state.IsClaimed) : state.Permits .failed := by
  rcases h with rfl | rfl | rfl | rfl <;> rfl

/-- The edges beside the table: a document that was indexed is queued under its next revision, one that was in
    progress is queued by recovery, and a publication does not wait for the last stage. -/
def Call.Bypasses (call : Call) (state next : DocumentState) : Prop :=
  match call with
  | .upsertDocument _ _ => (state = .done ∨ state = .indexing) ∧ next = .queued
  | .openStorage => state.IsClaimed ∧ next = .queued
  | .completeJob _ _ | .completeEmbeddedJob _ _ _ _ | .completeEmbeddedJobWithMemoryExtraction _ _ _ _ =>
    state.IsClaimed ∧ (next = .done ∨ next = .indexing)
  | _ => False

-- ---------------------------------------------------------------------------
-- The status of a document with an active job
-- ---------------------------------------------------------------------------

/-- The document of an active document job has the status of the job. -/
theorem Agreement.document_status {s : System} {j : Job} (h : s.db.Agree) (hd : d ∈ s.db.documents)
    (hj : j ∈ s.db.jobs) (hown : j.documentId = d.id) (hkind : j.kind = .document) (hactive : j.status.IsActive) :
    d.status = j.status := by
  have hshows := (h.busy hd hj hown hactive).2.2
  unfold Shows at hshows
  rwa [hkind] at hshows

/-- The document of an active memory job is being indexed. -/
theorem Agreement.memory_status {s : System} {j : Job} (h : s.db.Agree) (hd : d ∈ s.db.documents)
    (hj : j ∈ s.db.jobs) (hown : j.documentId = d.id) (hkind : j.kind = .memory) (hactive : j.status.IsActive) :
    d.status = .indexing := by
  have hshows := (h.busy hd hj hown hactive).2.2
  unfold Shows at hshows
  rw [hkind] at hshows
  exact hshows.1

/-- An upsert leaves the status of a document, or queues it again. -/
theorem upsert_status {s : System} (h : s.db.Agree) {orgId : String} {input : UpsertDocument} {result : UpsertResult}
    (hupsert : upsertDocumentFor env now orgId input s.db = .ok (result, db')) (hd : d ∈ s.db.documents)
    (hd' : d' ∈ db'.documents) (hid : d'.id = d.id) : d'.status = d.status ∨
      d'.status = .queued ∧ (d.status = .failed ∨ d.status = .done ∨ d.status = .indexing) := by
  obtain ⟨_, _, ⟨existing, hexisting, happly⟩ | hnew⟩ := upsertDocumentFor_ok hupsert
  · rcases applyExisting_ok happly with rfl | ⟨metadata, rfl⟩ | ⟨hinactive, hrequeue⟩
    · exact .inl (congrArg Document.status (Table.eq_of_key hd' hd hid))
    · dsimp only [setMetadata] at hd'
      obtain ⟨e, he, heid, rfl⟩ := Table.of_mem_update hd'
      obtain rfl := Table.eq_of_key he hd (heid.trans hid)
      refine .inl ?_
      split <;> rfl
    · obtain ⟨_, dbu, _, hupdate, henqueue⟩ := requeue_ok hrequeue
      have hdocuments : db'.documents = dbu.documents := by
        rcases enqueueUnlessActive_ok henqueue with ⟨_, rfl⟩ | ⟨_, _, _, _, hinsert⟩
        · rfl
        · obtain ⟨_, _, _, rfl⟩ := insertJob_ok hinsert
          rfl
      obtain ⟨e, he, heid, ⟨rfl, _⟩ | ⟨hself, _, hqueued⟩⟩ :=
        (updateFull_rewrites hupdate).document d' (hdocuments ▸ hd')
      · exact .inl (congrArg Document.status (Table.eq_of_key he hd hid))
      · obtain rfl := Table.eq_of_key he hd (heid.symm.trans hid)
        refine .inr ⟨hqueued, ?_⟩
        -- an active job of the document is not a document job, as that one would be left to run
        rcases h e he with ⟨_, hdone | hfailed⟩ | ⟨j, hbusy, hrev, _⟩
        · exact .inr (.inl hdone)
        · exact .inl hfailed
        · cases hkind : j.kind with
          | memory => exact .inr (.inr (h.memory_status he hbusy.mem hbusy.owner hkind hbusy.active))
          | document =>
            have hcurrent : s.db.documentRevision existing.id = some j.revision :=
              documentRevision_eq_some.mpr ⟨e, he, hself, hrev.symm⟩
            exact absurd ⟨j, hbusy.mem, hbusy.owner.trans hself, hcurrent.symm, hkind, hbusy.active⟩ hinactive
  · obtain ⟨document, documents, _, _, _, _, hinsert, henqueue⟩ := insertNew_ok hnew
    have hdocuments : db'.documents = documents := by
      rcases enqueueUnlessActive_ok henqueue with ⟨_, rfl⟩ | ⟨_, _, _, _, hinsert⟩
      · rfl
      · obtain ⟨_, _, _, rfl⟩ := insertJob_ok hinsert
        rfl
    rcases (Table.mem_insert hinsert).mp (hdocuments ▸ hd') with hold | rfl
    · exact .inl (congrArg Document.status (Table.eq_of_key hold hd hid))
    · exact absurd hid.symm (Table.insert_fresh hinsert d hd)

-- ---------------------------------------------------------------------------
-- Sessions
-- ---------------------------------------------------------------------------

/-- The status that a call sets in a session is the next one of the table, or the call is one that bypasses it. -/
theorem Disciplined.enacts (h : Disciplined s) (hs : Consistent env s.store) {call : Call} {status : DocumentState}
    (hlive : call.Live s) (hd : d ∈ s.store.db.documents) (henacts : call.Enacts s.store.db d status) :
    status = d.status ∨ d.status.Permits status ∨ call.Bypasses d.status status := by
  have hagree := h.agree
  -- the row of a live document handle is claimed, and its document has the same status
  have hholds {job : ClaimedJob} (hjob : call.job = some job) (hown : d.id = job.documentId) :
      ∃ j ∈ s.store.db.jobs, j.id = job.id ∧ d.status = j.status ∧ j.status.IsClaimed := by
    have hmem := hlive.1 job hjob
    obtain ⟨j, hh⟩ := hs.holds hagree (h.issued job hmem) (h.claimed job hmem) hd hown
    have hstatus := hagree.document_status hd hh.busy.mem hh.busy.owner hh.kind hh.claimed.isActive
    exact ⟨j, hh.busy.mem, hh.id, hstatus, hh.claimed⟩
  -- the document of a live memory handle whose row is extracting is being indexed
  have hindexing {m : ClaimedMemoryJob} {j : Job} (hm : call.memoryJob = some m) (hj : j ∈ s.store.db.jobs)
      (hid : j.id = m.id) (hstatus : j.status = .extracting) (hown : j.documentId = d.id) : d.status = .indexing := by
    obtain ⟨hkind, _⟩ := hs.memoryHandleRow m (h.issuedMemory m (hlive.2 m hm)) j hj hid
    exact hagree.memory_status hd hj hown hkind (hstatus ▸ DocumentState.isActive_extracting)
  cases henacts with
  | claimed hj hown hkind hqueued =>
    have hstatus := hagree.document_status hd hj hown hkind (hqueued ▸ DocumentState.isActive_queued)
    rw [hstatus, hqueued]
    exact .inr (.inl rfl)
  | staged hexpected hj hid hstatus hown =>
    obtain ⟨j', hj', hid', hsame, _⟩ := hholds rfl hown
    obtain rfl := Table.eq_of_key hj hj' (hid.trans hid'.symm)
    rw [hsame, hstatus]
    exact .inr (.inl (permits_stage hexpected))
  | published hjob hpublished hown hstatus =>
    obtain ⟨_, _, _, hsame, hclaimed⟩ := hholds hjob hown
    refine .inr (.inr ?_)
    cases call with
    | completeJob | completeEmbeddedJob | completeEmbeddedJobWithMemoryExtraction => exact ⟨hsame ▸ hclaimed, hstatus⟩
    | _ => cases hpublished
  | failed hown =>
    obtain ⟨_, _, _, hsame, hclaimed⟩ := hholds rfl hown
    exact .inr (.inl (permits_failed (hsame ▸ hclaimed)))
  | @completedMemory _ m j hj hid hstatus hown =>
    have hdoc := (hs.memoryHandleRow m (h.issuedMemory m (hlive.2 m rfl)) j hj hid).2.1
    rw [hindexing rfl hj hid hstatus (hdoc.trans hown.symm)]
    exact .inr (.inl rfl)
  | @retried _ m _ _ _ j hj hid hstatus hown =>
    have hdoc := (hs.memoryHandleRow m (h.issuedMemory m (hlive.2 m rfl)) j hj hid).2.1
    rw [hindexing rfl hj hid hstatus (hdoc.trans hown.symm)]
    exact .inr (.inl rfl)
  | reconciled hj hid hown hstatus =>
    rw [hindexing rfl hj hid hstatus hown]
    exact .inr (.inl rfl)
  | requeued _ _ _ _ hclaimed => exact .inr (.inr ⟨hclaimed, rfl⟩)
  | recovered hj hown hkind hactive _ => exact .inl (hagree.memory_status hd hj hown hkind hactive).symm

/-- The call changes the status of a document against the lifecycle. -/
def Breaks (calls : List Call) (call : Call) : Prop :=
  ∃ s ∈ afterCalls calls, ∃ d ∈ s.db.documents.rows,
    ∃ d' ∈ (call.run unaryEnv 63871286401 s.db).2.documents.rows,
      d'.id = d.id ∧ d'.status ≠ d.status ∧ ¬ d.status.Permits d'.status

instance (calls : List Call) (call : Call) : Decidable (Breaks calls call) :=
  inferInstanceAs (Decidable (∃ s ∈ afterCalls calls, ∃ d ∈ s.db.documents.rows, ∃ d' ∈ _, _))

end Storage
