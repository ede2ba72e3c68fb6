-- SUMMARY: Where the jobs of documents come from: an upsert that says so, and nothing else, makes a document claimable.
import Supermemory.Storage.ClaimOrder

/-!
# Queued documents

A document job can be claimed while it is queued for the current revision of its document.
Only an upsert that answers that it queued a document makes one claimable, and a document
job that can be claimed is never put off to a later time.
-/

namespace Storage

variable {env : Env} {now clock : Time} {mine : String → Prop} {db db' : Database} {call : Call}

-- ---------------------------------------------------------------------------
-- New document jobs
-- ---------------------------------------------------------------------------

/-- The documents that the answer of a call says it queued. -/
def Answer.queued : Answer → Option String
  | .upserted result => if result.enqueued then some result.id else none
  | _ => none

/-- The row was there before. -/
def Old (db : Database) (j : Job) : Prop := ∃ i ∈ db.jobs, i.id = j.id

/-- An `UPDATE` inserts nothing. -/
theorem old_update {jobs : Table Job Job.id} {p : Job → Prop} [DecidablePred p] {f : Job → Job} {j : Job}
    (h : ∀ i ∈ jobs, Old db i) (hj : j ∈ jobs.rows.map fun i => if p i then f i else i)
    (hf : ∀ j, (f j).id = j.id := by exact fun _ => rfl) : Old db j := by
  obtain ⟨i, hi, rfl⟩ := List.mem_map.mp hj
  obtain ⟨k, hk, hki⟩ := h i hi
  refine ⟨k, hk, hki.trans ?_⟩
  split
  · exact (hf i).symm
  · rfl

theorem old_refl : ∀ i ∈ db.jobs, Old db i := fun i hi => ⟨i, hi, rfl⟩

theorem old_or_inserted {dbu : Database} {documentId : String} {kind : JobKind} {revision : Nat} {j : Job}
    (h : ∀ i ∈ dbu.jobs, Old db i) (hinsert : dbu.insertJob env now documentId kind revision = .ok db')
    (hj : j ∈ db'.jobs) : Old db j ∨ j.documentId = documentId ∧ j.kind = kind := by
  obtain ⟨_, jobs, hrows, rfl⟩ := insertJob_ok hinsert
  cases (Table.mem_insert hrows).mp hj with
  | inl hold => exact .inl (h j hold)
  | inr hnew => exact .inr (hnew ▸ ⟨rfl, rfl⟩)

theorem old_or_enqueued {dbu : Database} {id : String} {enqueued : Bool} {j : Job} (h : ∀ i ∈ dbu.jobs, Old db i)
    (henqueue : enqueueUnlessActive env now dbu id = .ok (enqueued, db')) (hj : j ∈ db'.jobs) :
    Old db j ∨ enqueued = true ∧ j.documentId = id := by
  unfold enqueueUnlessActive at henqueue
  split at henqueue
  · cases henqueue
    exact .inl (h j hj)
  · split at henqueue
    · cases henqueue
    · split at henqueue
      · cases henqueue
      · rename_i hinsert
        cases henqueue
        exact (old_or_inserted h hinsert hj).imp_right fun hnew => ⟨rfl, hnew.1⟩

theorem requeue_queues {existing : Document} {input : UpsertDocument} {hash : String} {result : UpsertResult} {j : Job}
    (h : requeue env now db existing input hash = .ok (result, db')) (hj : j ∈ db'.jobs) :
    Old db j ∨ result.enqueued = true ∧ j.documentId = result.id := by
  unfold requeue at h
  split at h
  · cases h
  · rename_i dbu hupdate
    have hrows : ∀ i ∈ dbu.jobs, Old db i := by
      obtain rfl := updateFull_ok hupdate
      exact fun i hi => old_update old_refl hi
    split at h
    · cases h
    · rename_i henqueue
      cases h
      exact old_or_enqueued hrows henqueue hj

theorem upsertDocument_queues {orgId : String} {input : UpsertDocument} {result : UpsertResult} {j : Job}
    (h : upsertDocumentFor env now orgId input db = .ok (result, db')) (hj : j ∈ db'.jobs) :
    Old db j ∨ result.enqueued = true ∧ j.documentId = result.id := by
  obtain ⟨_, _, hcases⟩ := upsertDocumentFor_ok h
  cases hcases with
  | inl hexisting =>
    obtain ⟨existing, _, happly⟩ := hexisting
    rcases applyExisting_ok happly with rfl | ⟨metadata, rfl⟩ | ⟨_, hrequeue⟩
    · exact .inl ⟨j, hj, rfl⟩
    · exact .inl ⟨j, hj, rfl⟩
    · exact requeue_queues hrequeue hj
  | inr hnew =>
    unfold insertNew at hnew
    simp only at hnew
    split at hnew
    · split at hnew
      · cases hnew
      · rename_i documents hinsert
        have hrows : ∀ i ∈ ({ db with documents, idsDrawn := db.idsDrawn + 1 } : Database).jobs, Old db i := old_refl
        split at hnew
        · cases hnew
        · rename_i henqueue
          cases hnew
          exact (old_or_enqueued hrows henqueue hj).imp_right fun hqueued => ⟨rfl, hqueued.2⟩
    · cases hnew

/-- A new document job comes from a call that says that it queued the document. -/
theorem Call.queues {j : Job} (hj : j ∈ (call.run env now db).2.jobs) (hkind : j.kind = .document) :
    Old db j ∨ ∃ answer, (call.run env now db).1 = .ok answer ∧ answer.queued = some j.documentId := by
  have heffect := call.effect env now db
  generalize call.run env now db = r at heffect hj ⊢
  cases heffect with
  | failed | nothing => exact .inl (old_refl j hj)
  | upserted hr =>
    refine (upsertDocument_queues hr hj).imp_right fun hqueued => ⟨_, rfl, ?_⟩
    rw [Answer.queued, if_pos hqueued.1, hqueued.2]
  | claimed hr =>
    obtain ⟨_, _, _, _, _, _, _, _, _, rfl⟩ := claimJob_some hr
    exact .inl (old_update old_refl hj)
  | staged hr =>
    obtain ⟨_, _, _, _, rfl⟩ := markJobStage_ok hr
    exact .inl (old_update old_refl hj)
  | @published _ job _ _ _ _ _ _ _ hr =>
    obtain ⟨_, dbc, hsame, _, _, _, hcommit⟩ := publishJob_ok hr
    have hfinish : ∀ i ∈ (finishJob dbc job.id job.revision).jobs, Old db i := by
      intro i hi
      dsimp only [finishJob] at hi
      rw [hsame.jobs] at hi
      exact old_update old_refl hi
    split at hcommit
    · obtain ⟨dbj, hinsert, rfl⟩ := hcommit
      cases old_or_inserted hfinish hinsert hj with
      | inl hold => exact .inl hold
      | inr hnew => exact absurd (hkind.symm.trans hnew.2) JobKind.noConfusion
    · subst hcommit
      exact .inl (hfinish j hj)
  | failedJob => exact .inl (old_update old_refl hj)
  | deletedEmpty | deleted => exact .inl (old_refl j (Table.mem_delete.mp hj).1)
  | claimedMemory hr =>
    obtain ⟨_, _, _, _, _, _, _, _, _, _, _, rfl⟩ := claimMemoryJob_some hr
    exact .inl (old_update old_refl hj)
  | @cached job result =>
    cases cacheMemoryExtraction_cases job result db with
    | inl hcached =>
      rw [hcached.2] at hj
      exact .inl (old_update old_refl hj)
    | inr hstale =>
      rw [hstale.2] at hj
      exact .inl (old_update old_refl hj)
  | completedMemory hr =>
    rcases completeMemoryJob_ok hr with ⟨_, rfl⟩ | ⟨_, _, rfl⟩
    · exact .inl (old_update old_refl hj)
    · exact .inl (old_update old_refl hj)
  | retried hr =>
    rcases retryMemoryJob_ok hr with ⟨_, rfl⟩ | ⟨_, _, _, ⟨_, rfl⟩ | rfl⟩
    · exact .inl (old_update old_refl hj)
    · exact .inl (old_update old_refl hj)
    · exact .inl (old_update old_refl hj)
  | reconciled hr =>
    obtain ⟨_, _, _, _, t, hloop, _, hfinish⟩ := reconcileMemoriesFor_ok hr
    have hjobs : t.db.jobs = db.jobs := (reconcileProposals_memoriesOnly hloop).jobs
    rcases hfinish with ⟨_, rfl⟩ | ⟨_, _, hfinish⟩
    · exact .inl (old_refl j (hjobs ▸ hj))
    · obtain ⟨_, rfl⟩ := finishReconciliation_ok hfinish
      refine .inl (old_update (fun i hi => ?_) hj)
      exact old_refl i (hjobs ▸ hi)
  | forgot hr =>
    obtain ⟨_, _, _, _, rfl⟩ := forgetMemoryFor_ok hr
    exact .inl (old_refl j hj)
  | opened hr =>
    obtain ⟨_, _, _, rfl⟩ := openStorage_ok hr
    exact .inl (old_update (fun _ hi => old_update old_refl hi) hj)

-- ---------------------------------------------------------------------------
-- Claimable documents
-- ---------------------------------------------------------------------------

/-- No document job waits for a later time. -/
def Timely (clock : Time) (db : Database) : Prop := ∀ j ∈ db.jobs, j.kind = .document → j.availableAt ≤ clock

theorem Timely.of_subset (h : Timely now db) (hjobs : ∀ j ∈ db'.jobs, j ∈ db.jobs) : Timely now db' :=
  fun j hj => h j (hjobs j hj)

/-- Statements queue documents for the present time. -/
theorem Statement.timely (h : Statement env now mine db db') (htimely : Timely now db) : Timely now db' := by
  cases h with
  | insertJob _ _ hinsert =>
    obtain ⟨_, jobs, hrows, rfl⟩ := insertJob_ok hinsert
    intro j hj hkind
    cases (Table.mem_insert hrows).mp hj with
    | inl hold => exact htimely j hold hkind
    | inr hnew => exact hnew ▸ le_refl now
  | @updateJobs p _ f hf hbecomes =>
    intro j hj hkind
    have hmem : j ∈ db.jobs.update p f hf := hj
    obtain ⟨i, hi, _, rfl⟩ := Table.of_mem_update hmem
    split at hkind
    · rename_i hguard
      have hjob := (hbecomes i hi hguard).2
      have hdocument : i.kind = .document := hjob.same.2.2.1.symm.trans hkind
      rw [if_pos hguard]
      cases hjob.availableAt hdocument with
      | inl hsame =>
        rw [hsame]
        exact htimely i hi hdocument
      | inr hnow => exact hnow.le
    · rename_i hguard
      rw [if_neg hguard]
      exact htimely i hi hkind
  | deleteDocument => exact htimely.of_subset fun j hj => (Table.mem_delete.mp hj).1
  | insertChunk _ _ hchunk =>
    have hjobs := (insertChunk_ok hchunk).1.jobs
    exact htimely.of_subset fun j hj => hjobs ▸ hj
  | insertChunkEmbedding _ _ hembed =>
    obtain ⟨_, rfl⟩ := insertChunkEmbedding_ok hembed
    exact htimely
  | insertMemoryEmbedding _ _ hembed =>
    obtain ⟨_, rfl, _⟩ := insertMemoryEmbedding_ok hembed
    exact htimely
  | addRelation =>
    unfold Storage.addRelation
    split
    · exact htimely
    · exact htimely
  | drawId | insertOrganization | insertDocument | updateDocuments | deleteChunks | insertMemory | updateMemories
    | insertSource | deactivateVectors => exact htimely

theorem timely_of_reachable {s : Clocked} (h : (clocked env).Reachable s) : Timely s.clock s.store.db := by
  apply h.invariant (I := fun s => Timely s.clock s.store.db)
  · rintro ⟨clock, _⟩ ⟨organizations, rfl⟩ j hj
    exact absurd hj Table.not_mem_empty
  · intro s event s' hs htimely hstep
    obtain ⟨hclock, hissued, rfl⟩ := clocked_step.mp hstep
    dsimp only
    rw [System.after_db]
    have hstatements : Statements env event.1 _ s.store.db _ :=
      event.2.statements (consistent_of_reachable (machine_of_clocked hs)) hissued
    exact hstatements.invariant (fun _ _ htimely hstatement => hstatement.timely htimely)
      fun j hj hkind => (htimely j hj hkind).trans hclock

/-- The job waits for the current revision of its document. -/
structure Claimable (db : Database) (j : Job) : Prop where
  mem : j ∈ db.jobs
  kind : j.kind = .document
  queued : j.status = .queued
  current : db.documentRevision j.documentId = some j.revision

/-- A claim that finds nothing leaves nothing to claim. -/
theorem not_claimable {j : Job} (hclaim : (claimJob now db).1 = none) (htimely : Timely clock db) (hclock : clock ≤ now) :
    ¬ Claimable db j := by
  intro h
  obtain ⟨d, hd, hrevision⟩ := Option.map_eq_some_iff.mp h.current
  have hwaits : Waits db j d :=
    ⟨h.mem, h.queued, ⟨d.status, Table.find_mem hd⟩, Table.find_key hd, hrevision⟩
  obtain ⟨k, e, hnext⟩ := hwaits.next ((htimely j h.mem h.kind).trans hclock)
  rw [h.kind] at hnext
  simp only [claimJob, hnext] at hclaim
  cases hclaim

/-- While the database stays open, only a call that says so makes a document claimable. -/
theorem claimable_before {s : System} {j : Job} (hs : Consistent env s) (hissued : call.Issued s)
    (hopen : call ≠ .openStorage) (h : Claimable (call.run env now s.db).2 j) :
    (∃ i, Claimable s.db i ∧ i.documentId = j.documentId) ∨
      ∃ answer, (call.run env now s.db).1 = .ok answer ∧ answer.queued = some j.documentId := by
  cases Call.queues h.mem h.kind with
  | inr hqueued => exact .inr hqueued
  | inl hold =>
    obtain ⟨i, hi, hij⟩ := hold
    have hdrawn : Drawn env s.db j.id := hij ▸ hs.jobDrawn i hi
    obtain ⟨⟨k, hk, hkj, hkind, hqueued⟩, _⟩ := queued_before hs hissued hopen h.mem h.kind h.queued hdrawn
    have hplaces : KeepsPlaces env now s.db (call.run env now s.db).2 := (call.statements hs hissued).keepsPlaces
    have hticket : k.ticket = j.ticket := by
      cases hplaces.tickets.mem (List.mem_map_of_mem h.mem) with
      | inl hmem =>
        obtain ⟨k', hk', hsame⟩ := List.mem_map.mp hmem
        have hid : k'.id = j.id := congrArg Ticket.id hsame
        rw [Table.eq_of_key hk hk' (hkj.trans hid.symm)]
        exact hsame
      | inr hfresh => exact absurd hdrawn hfresh.2
    have hdocument : k.documentId = j.documentId := congrArg Ticket.documentId hticket
    have hrevision : k.revision = j.revision := congrArg Ticket.revision hticket
    obtain ⟨d', hd', hid', hcurrent⟩ := documentRevision_eq_some.mp h.current
    obtain ⟨e, he, hek⟩ := hs.owner k hk
    refine .inl ⟨k, ⟨hk, hkind, hqueued, documentRevision_eq_some.mpr ?_⟩, hdocument⟩
    cases hplaces.documents d' hd' with
    | inl hnew =>
      have hknown := hs.documentDrawn e he
      rw [hek, hdocument, ← hid'] at hknown
      exact absurd hknown hnew
    | inr hkept =>
      obtain ⟨d, hd, hid, hle⟩ := hkept
      have howner : d.id = k.documentId := hid.trans (hid'.trans hdocument.symm)
      have hge := hs.revision k hk d hd howner
      refine ⟨d, hd, howner, Nat.le_antisymm ?_ hge⟩
      rw [hrevision, ← hcurrent]
      exact hle

end Storage
