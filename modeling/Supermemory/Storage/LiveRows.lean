-- SUMMARY: What the calls of a coordinator do to the rows of its live handles.
import Supermemory.Storage.Discipline

/-!
# Rows of live handles

Nobody else touches the row of a live handle. So a stage change and a publication with
it are refused only when the document was deleted, or by the engine, and the row is what
the last call with the handle left.
-/

namespace Storage

variable {env : Env} {now : Time} {s : Session} {call : Call} {k : ClaimedJob}

-- ---------------------------------------------------------------------------
-- Rows of live handles
-- ---------------------------------------------------------------------------

theorem Call.ended_job (h : call.ended = some k) : call.job = some k := by
  cases call <;> first | exact h | cases h

/-- Only opening answers that the store was opened. -/
theorem Call.answer_opened {db : Database} {id : String}
    (h : (call.run env now db).1 = .ok (.opened id)) : call = .openStorage := by
  cases call with
  | openStorage => rfl
  | claimJob | failJob | deleteEmptyDocument | deleteDocument => cases h
  | cacheMemoryExtraction job result =>
    simp only [Call.run] at h
    cases hr : (Storage.cacheMemoryExtraction job result db).1 with
    | error e =>
      rw [hr] at h
      cases h
    | ok _ =>
      rw [hr] at h
      cases h
  | _ =>
    obtain ⟨_, _, heq⟩ := commit_map_ok h
    cases heq

theorem live_new {r : Except StorageError Answer × Database} {answer : Answer} (hr : r.1 = .ok answer)
    (hk : answer.job = some k) : k ∈ (s.after call r).live := by
  cases answer with
  | claimed job =>
    obtain rfl : job = some k := hk
    simp [Session.after, liveAfter, hr, Answer.job]
  | _ => cases hk

theorem live_kept (hk : k ∈ s.live) (hended : call.ended ≠ some k) (hopen : call ≠ .openStorage) :
    k ∈ (s.after call (call.run env now s.store.db)).live := by
  dsimp only [Session.after]
  unfold liveAfter
  split
  · exact hk
  · rename_i id hr
    exact absurd (Call.answer_opened hr) hopen
  · refine List.mem_append_right _ (List.mem_filter.mpr ⟨hk, ?_⟩)
    simpa using fun h => hended h.symm

namespace Disciplined

/-- A call leaves the row of a handle alone that it does not take and whose row is not queued. -/
theorem row_kept (h : Disciplined s) (hs : Consistent env s.store) (hlive : call.Live s)
    (hopen : call ≠ .openStorage) (hk : k ∈ s.store.jobs) (hown : ∀ k' ∈ call.job, k'.id ≠ k.id)
    (hqueued : ∀ j ∈ s.store.db.jobs, j.id = k.id → j.status ≠ .queued) :
    ∀ j ∈ (call.run env now s.store.db).2.jobs, j.id = k.id → j ∈ s.store.db.jobs := by
  intro j hj hid
  have hs' : Consistent env (s.store.after call (call.run env now s.store.db)) :=
    hs.after (h.call_issued hlive)
  have hdocument : j.kind = .document := by
    refine (hs'.handleRow k (System.mem_after_jobs hk) j ?_ hid).1
    rwa [System.after_db]
  rcases Call.touches hopen j hj with hsame | ⟨htarget, _⟩ | hfresh | ⟨hmemory, _⟩
  · exact hsame
  · rcases htarget with ⟨k', hk', hid'⟩ | ⟨m, hm, hid'⟩ | ⟨answer, hr, ⟨k', hk', hid'⟩ | ⟨m, hm, hid'⟩⟩
    · exact absurd (hid'.trans hid) (hown k' hk')
    · have hrow := (hs'.memoryHandleRow m (System.mem_after_memoryJobs (h.issuedMemory m (hlive.2 m hm)))
        j (by rwa [System.after_db]) hid'.symm).1
      rw [hdocument] at hrow
      cases hrow
    · obtain ⟨i, hi, hiid, _, hstatus⟩ := Call.answer_queued hr hk'
      exact absurd hstatus (hqueued i hi (hiid.trans (hid'.trans hid)))
    · obtain ⟨i, hi, hiid, _, hstatus⟩ := Call.answer_memoryQueued hr hm
      exact absurd hstatus (hqueued i hi (hiid.trans (hid'.trans hid)))
  · exact absurd (hid ▸ (hs.handleDrawn k hk).1) hfresh
  · rw [hdocument] at hmemory
    cases hmemory

/-- The row of a live handle is at the revision of its document, which shows its status. -/
theorem live_row (h : Disciplined s) (hs : Consistent env s.store) (hk : k ∈ s.live) {j : Job}
    (hj : j ∈ s.store.db.jobs) (hid : j.id = k.id) :
    j.documentId = k.documentId ∧ j.revision = k.revision ∧
      ∃ d ∈ s.store.db.documents, d.id = k.documentId ∧ d.revision = k.revision ∧ d.status = j.status := by
  obtain ⟨hkind, hdocument, hrevision⟩ := hs.handleRow k (h.issued k hk) j hj hid
  obtain ⟨d, hd, hown⟩ := hs.owner j hj
  obtain ⟨_, hdrevision, hshows⟩ := h.agree.busy hd hj hown.symm (h.claimed k hk j hj hid).isActive
  unfold Shows at hshows
  rw [hkind] at hshows
  exact ⟨hdocument, hrevision, d, hd, hown.trans hdocument, hdrevision.symm.trans hrevision, hshows⟩

/-- A stage change advances the row, and is refused only when the row is gone. -/
theorem stage_row (h : Disciplined s) (hs : Consistent env s.store) (hk : k ∈ s.live)
    {stage expected : DocumentState} (hexpected : expectedStage stage = some expected)
    (hrow : ∀ j ∈ s.store.db.jobs, j.id = k.id → j.status = expected) :
    ((Call.markJobStage k stage).run env now s.store.db = (.error (.staleRevision k.documentId k.revision none),
        s.store.db) ∧ ∀ j ∈ s.store.db.jobs, j.id ≠ k.id) ∨
    ∃ db', (Call.markJobStage k stage).run env now s.store.db = (.ok .unit, db') ∧
      ∀ j ∈ db'.jobs, j.id = k.id → j.status = stage := by
  simp only [Call.run]
  cases hr : Storage.markJobStage k stage s.store.db with
  | error e =>
    unfold markJobStage at hr
    rw [hexpected] at hr
    simp only at hr
    split at hr
    · rename_i hcounts
      cases hr
      refine .inl ⟨rfl, fun j hj hid => ?_⟩
      obtain ⟨_, hrevision, d, hd, hdid, hdrevision, _⟩ := h.live_row hs hk hj hid
      rcases hcounts with hjobs | hdocuments
      · exact hjobs ((countJobs_eq_one fun _ h => h.1).mpr ⟨j, hj, hid, hrevision, hrow j hj hid⟩)
      · exact hdocuments (countDocument_eq_one.mpr ⟨d, hd, hdid, hdrevision⟩)
    · cases hr
  | ok db' =>
    refine .inr ⟨db', rfl, fun j hj hid => ?_⟩
    obtain ⟨expected', hexpected', ⟨i, hi, hiid, hirevision, histatus⟩, _, rfl⟩ := markJobStage_ok hr
    dsimp only [advanceJob, Database.setDocumentStatus] at hj
    obtain ⟨r, hr, hrid, rfl⟩ := Table.of_mem_update hj
    obtain rfl := Table.eq_of_key hr hi (hrid.trans (hid.trans hiid.symm))
    rw [if_pos ⟨hiid, hirevision, histatus⟩]

/-- Failing a job fails its row. -/
theorem fail_row (h : Disciplined s) (hs : Consistent env s.store) (hk : k ∈ s.live) (error : String) :
    ∀ j ∈ (failJob k error s.store.db).jobs, j.id = k.id → j.status = .failed := by
  intro j hj hid
  dsimp only [failJob, Database.setDocumentStatus] at hj
  obtain ⟨r, hr, hkey, rfl⟩ := Table.of_mem_update hj
  have hrid : r.id = k.id := hkey.trans hid
  rw [if_pos ⟨hrid, (h.live_row hs hk hr hrid).2.1⟩]

/-- A document without chunks takes its row with it. -/
theorem deleteEmpty_row (h : Disciplined s) (hs : Consistent env s.store) (hk : k ∈ s.live)
    (hrow : ∀ j ∈ s.store.db.jobs, j.id = k.id → j.status = .chunking) :
    ∀ j ∈ (Storage.deleteEmptyDocument k s.store.db).jobs, j.id ≠ k.id := by
  intro j hj hid
  have hold : j ∈ s.store.db.jobs := by
    rcases deleteEmptyDocument_cases k s.store.db with heq | heq
    · exact heq ▸ hj
    · rw [heq] at hj
      exact (Table.mem_delete.mp hj).1
  obtain ⟨hdocument, _, d, hd, hdid, hdrevision, hdstatus⟩ := h.live_row hs hk hold hid
  rw [hrow j hold hid] at hdstatus
  unfold Storage.deleteEmptyDocument at hj
  rw [Table.find_eq_some.mpr ⟨hd, hdid⟩] at hj
  simp only [hdrevision, hdstatus, or_true, and_self, if_true] at hj
  exact (Table.mem_delete.mp hj).2 hdocument

end Disciplined

-- ---------------------------------------------------------------------------
-- Publication
-- ---------------------------------------------------------------------------

/-- The engine refused a statement. -/
def EngineFails (r : Except StorageError Answer) : Prop := r = .error .write ∨ r = .error .read

instance : DecidablePred EngineFails := fun _ => inferInstanceAs (Decidable (_ ∨ _))

theorem insertEmbeddedChunk_error {db : Database} {documentId stableId : String}
    {embedding : Option (String × Nat)} {ordinal : Nat} {chunk : EmbeddedChunk} {e : StorageError}
    (h : insertEmbeddedChunk documentId embedding ordinal chunk stableId db = .error e) : e = .write := by
  unfold insertEmbeddedChunk at h
  split at h
  · rename_i hchunk
    cases h
    unfold insertChunk at hchunk
    simp only at hchunk
    split at hchunk
    · cases hchunk
      rfl
    · split at hchunk
      · cases hchunk
        rfl
      · cases hchunk
  · split at h
    · cases h
    · unfold insertChunkEmbedding at h
      split at h
      · cases h
        rfl
      · split at h
        · cases h
          rfl
        · cases h

theorem insertChunks_error {db : Database} {documentId : String} {embedding : Option (String × Nat)}
    {existing : List ((Nat × String) × String)} {ordinal : Nat} {chunks : List EmbeddedChunk} {e : StorageError}
    (h : insertChunks env documentId embedding existing ordinal chunks db = .error e) : e = .write := by
  induction chunks generalizing ordinal db with
  | nil => cases h
  | cons chunk rest ih =>
    rw [insertChunks] at h
    split at h
    · rename_i hinserted
      cases h
      split at hinserted
      · exact insertEmbeddedChunk_error hinserted
      · exact insertEmbeddedChunk_error hinserted
    · exact ih h

theorem insertJob_error {db : Database} {documentId : String} {kind : JobKind} {revision : Nat} {e : StorageError}
    (h : db.insertJob env now documentId kind revision = .error e) : e = .write := by
  unfold Database.insertJob at h
  simp only at h
  split at h
  · cases h
    rfl
  · split at h
    · cases h
      rfl
    · cases h

/-- A publication is refused when the revision of the handle is gone, or by the engine. -/
theorem publishJob_error {db : Database} {chunks : List EmbeddedChunk} {embedding : Option (String × Nat)}
    {schedule : Bool} {e : StorageError} (h : publishJob env now k chunks embedding schedule db = .error e) :
    db.documentRevision k.documentId ≠ some k.revision ∨ e = .write := by
  unfold publishJob at h
  simp only at h
  split at h
  · rename_i hstale
    exact .inl hstale
  · split at h
    · rename_i hinsert
      cases h
      exact .inr (insertChunks_error hinsert)
    · split at h
      · split at h
        · rename_i hjob
          cases h
          exact .inr (insertJob_error hjob)
        · cases h
      · cases h

namespace Disciplined

/-- A publication finishes the row. -/
theorem publish_row (h : Disciplined s) (hs : Consistent env s.store) (hk : k ∈ s.live) {chunks : List String}
    {schedule : Bool} {db' : Database} (hp : Publishes env now k chunks schedule s.store.db db') :
    ∀ j ∈ db'.jobs, j.id = k.id → j.status = .done := by
  obtain ⟨_, dbc, hsame, -, -, -, hcommit⟩ := hp
  have hfinish : ∀ j ∈ (finishJob dbc k.id k.revision).jobs, j.id = k.id → j.status = .done := by
    intro j hj hid
    dsimp only [finishJob] at hj
    rw [hsame.jobs] at hj
    obtain ⟨r, hr, hkey, rfl⟩ := Table.of_mem_update hj
    have hrid : r.id = k.id := hkey.trans hid
    rw [if_pos ⟨hrid, (h.live_row hs hk hr hrid).2.1, h.claimed k hk r hr hrid⟩]
  cases schedule with
  | false =>
    obtain rfl : db' = _ := hcommit
    exact hfinish
  | true =>
    obtain ⟨dbj, hinsert, rfl⟩ := hcommit
    obtain ⟨_, jobs, hins, rfl⟩ := insertJob_ok hinsert
    intro j hj hid
    rcases (Table.mem_insert hins).mp hj with hj | rfl
    · exact hfinish j hj hid
    · have hdrawn : Drawn env s.store.db (env.generateId dbc.idsDrawn) := by
        have hhandle := (hs.handleDrawn k (h.issued k hk)).1
        rwa [← hid] at hhandle
      exact absurd hdrawn (not_drawn hsame.idsDrawn)

/-- The revision of a live handle is gone only with its row. -/
theorem stale_row (h : Disciplined s) (hs : Consistent env s.store) (hk : k ∈ s.live)
    (hstale : s.store.db.documentRevision k.documentId ≠ some k.revision) :
    ∀ j ∈ s.store.db.jobs, j.id ≠ k.id := by
  intro j hj hid
  obtain ⟨_, _, d, hd, hdid, hdrevision, _⟩ := h.live_row hs hk hj hid
  exact hstale (documentRevision_eq_some.mpr ⟨d, hd, hdid, hdrevision⟩)

end Disciplined

/-- A row that is gone does not come back. -/
theorem gone_kept (hs : Consistent env s.store) (hopen : call ≠ .openStorage) (hk : k ∈ s.store.jobs)
    (hgone : ∀ j ∈ s.store.db.jobs, j.id ≠ k.id) :
    ∀ j ∈ (call.run env now s.store.db).2.jobs, j.id ≠ k.id := by
  intro j hj hid
  rcases Call.touches hopen j hj with hsame | ⟨_, i, hi, hiid⟩ | hfresh | ⟨_, _, i, hi, hiid, _⟩
  · exact hgone j hsame hid
  · exact hgone i hi (hiid.trans hid)
  · exact hfresh (hid ▸ (hs.handleDrawn k hk).1)
  · exact hgone i hi (hiid.trans hid)

end Storage
