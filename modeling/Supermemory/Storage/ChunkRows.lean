-- SUMMARY: The chunk tables over all runs, and why the engine accepts the chunks of a publication.
import Supermemory.Storage.CallEffects
import Supermemory.Storage.Consistency

/-!
# Chunk rows

A stable identifier belongs to one chunk, and a vector to a chunk that is there. A
publication deletes the chunks of its document first and gives the new ones their old
identifiers at the same position, or new ones, so none of its statements violates a key.
-/

namespace Storage

variable {env : Env} {now : Time} {db db' : Database}

/-- Stable identifiers were drawn, no two chunks share one, and every vector has its chunk. -/
structure SoundChunks (env : Env) (db : Database) : Prop where
  drawn : ∀ c ∈ db.chunks, Drawn env db c.stableId
  stable : ∀ c ∈ db.chunks, ∀ c' ∈ db.chunks, c.stableId = c'.stableId → c = c'
  embedded : ∀ e ∈ db.chunkEmbeddings, ∃ c ∈ db.chunks, c.id = e.chunkId

namespace SoundChunks

theorem same (h : SoundChunks env db) (hchunks : db'.chunks = db.chunks)
    (hembeddings : db'.chunkEmbeddings = db.chunkEmbeddings) (hdrawn : db.idsDrawn ≤ db'.idsDrawn) :
    SoundChunks env db' where
  drawn c hc := (h.drawn c (hchunks ▸ hc)).mono hdrawn
  stable c hc c' hc' := h.stable c (hchunks ▸ hc) c' (hchunks ▸ hc')
  embedded e he := by
    rw [hchunks]
    exact h.embedded e (hembeddings ▸ he)

/-- The vectors of deleted chunks go with them. -/
theorem deleteChunks (h : SoundChunks env db) (id : String) : SoundChunks env (deleteChunks db id) where
  drawn c hc := h.drawn c (Table.mem_delete.mp hc).1
  stable c hc c' hc' := h.stable c (Table.mem_delete.mp hc).1 c' (Table.mem_delete.mp hc').1
  embedded e he := by
    obtain ⟨he, hkept⟩ := Table.mem_delete.mp he
    obtain ⟨c, hc, hid⟩ := h.embedded e he
    exact ⟨c, Table.mem_delete.mpr ⟨hc, fun hdocument => hkept ⟨c, hc, hid, hdocument⟩⟩, hid⟩

theorem deleteDocument (h : SoundChunks env db) (id : String) : SoundChunks env (db.deleteDocument id) :=
  (h.deleteChunks id).same rfl rfl (le_refl _)

end SoundChunks

-- ---------------------------------------------------------------------------
-- Insertion
-- ---------------------------------------------------------------------------

/-- What an inserted chunk adds to the chunk table. -/
def AddsChunk (documentId : String) (ordinal : Nat) (stableId : String) (db db' : Database) : Prop :=
  ∀ c ∈ db'.chunks, c ∈ db.chunks ∨ c.documentId = documentId ∧ c.ordinal = ordinal ∧ c.stableId = stableId

theorem insertChunk_commits {documentId stableId : String} {ordinal : Nat} (h : SoundChunks env db) (content : String)
    (hplace : ∀ c ∈ db.chunks, c.documentId = documentId → c.ordinal ≠ ordinal)
    (hunused : ∀ c ∈ db.chunks, c.stableId ≠ stableId) (hdrawn : Drawn env db stableId) :
    ∃ chunkId chunks, insertChunk db documentId ordinal content stableId = .ok (chunkId, { db with chunks }) ∧
      SoundChunks env { db with chunks } ∧ AddsChunk documentId ordinal stableId db { db with chunks } ∧
      (∃ c ∈ chunks, c.id = chunkId) ∧ ∀ e ∈ db.chunkEmbeddings, e.chunkId ≠ chunkId := by
  have hkey : ∀ c ∈ db.chunks, c.id ≠ (db.chunks.rows.map Chunk.id).foldr max 0 + 1 := by
    intro c hc hid
    have hle : c.id ≤ (db.chunks.rows.map Chunk.id).foldr max 0 := List.le_max_of_le (List.mem_map_of_mem hc) (le_refl _)
    omega
  have hfree : ¬ ∃ c ∈ db.chunks.rows, (c.documentId = documentId ∧ c.ordinal = ordinal) ∨ c.stableId = stableId := by
    rintro ⟨c, hc, ⟨hdocument, hordinal⟩ | hstable⟩
    · exact hplace c hc hdocument hordinal
    · exact hunused c hc hstable
  obtain ⟨chunks, hins⟩ := Table.insert_isSome (t := db.chunks)
    (r := ⟨(db.chunks.rows.map Chunk.id).foldr max 0 + 1, documentId, ordinal, content, stableId⟩) hkey
  refine ⟨_, chunks, ?_, ⟨?_, ?_, ?_⟩, ?_, ⟨_, (Table.mem_insert hins).mpr (.inr rfl), rfl⟩, ?_⟩
  · unfold insertChunk
    simp only
    rw [if_neg hfree, hins]
  · intro c hc
    rcases (Table.mem_insert hins).mp hc with hc | rfl
    · exact h.drawn c hc
    · exact hdrawn
  · intro c hc c' hc' hstable
    rcases (Table.mem_insert hins).mp hc with hold | rfl
    · rcases (Table.mem_insert hins).mp hc' with hold' | rfl
      · exact h.stable c hold c' hold' hstable
      · exact absurd hstable (hunused c hold)
    · rcases (Table.mem_insert hins).mp hc' with hold' | rfl
      · exact absurd hstable.symm (hunused c' hold')
      · rfl
  · intro e he
    obtain ⟨c, hc, hid⟩ := h.embedded e he
    exact ⟨c, (Table.mem_insert hins).mpr (.inl hc), hid⟩
  · intro c hc
    exact ((Table.mem_insert hins).mp hc).imp_right fun heq => by simp [heq]
  · intro e he hid
    obtain ⟨c, hc, hcid⟩ := h.embedded e he
    exact hkey c hc (hcid.trans hid)

/-- Inserting a chunk at a free position under an unused identifier commits. -/
theorem insertEmbeddedChunk_commits {documentId stableId : String} {embedding : Option (String × Nat)} {ordinal : Nat}
    {chunk : EmbeddedChunk} (h : SoundChunks env db) (hdimensions : ∀ p ∈ embedding, p.2 ≠ 0)
    (hplace : ∀ c ∈ db.chunks, c.documentId = documentId → c.ordinal ≠ ordinal)
    (hunused : ∀ c ∈ db.chunks, c.stableId ≠ stableId) (hdrawn : Drawn env db stableId) :
    ∃ db', insertEmbeddedChunk documentId embedding ordinal chunk stableId db = .ok db' ∧ SoundChunks env db' ∧
      AddsChunk documentId ordinal stableId db db' ∧ db'.idsDrawn = db.idsDrawn := by
  obtain ⟨chunkId, chunks, hinsert, hsound, hadds, ⟨c, hc, hcid⟩, hkey⟩ :=
    insertChunk_commits h chunk.content hplace hunused hdrawn
  unfold insertEmbeddedChunk
  rw [hinsert]
  simp only
  cases embedding with
  | none => exact ⟨_, rfl, hsound, hadds, rfl⟩
  | some p =>
    obtain ⟨modelId, dimensions⟩ := p
    obtain ⟨chunkEmbeddings, hins⟩ := Table.insert_isSome (t := db.chunkEmbeddings)
      (r := ⟨chunkId, modelId, dimensions, vectorBytes chunk.vector⟩) hkey
    refine ⟨{ db with chunks, chunkEmbeddings }, ?_, ⟨hsound.drawn, hsound.stable, ?_⟩, hadds, rfl⟩
    · simp only [insertChunkEmbedding]
      rw [if_neg (hdimensions _ rfl), hins]
    · intro e he
      rcases (Table.mem_insert hins).mp he with he | rfl
      · exact hsound.embedded e he
      · exact ⟨c, hc, hcid⟩

/-- The insertion loop may go on from a position: its earlier chunks are in front of it, and the identifiers of
    later positions are unused. -/
structure Insertable (env : Env) (documentId : String) (existing : List ((Nat × String) × String)) (ordinal : Nat)
    (db : Database) : Prop where
  sound : SoundChunks env db
  front : ∀ c ∈ db.chunks, c.documentId = documentId → c.ordinal < ordinal
  drawn : ∀ e ∈ existing, Drawn env db e.2
  distinct : ∀ e ∈ existing, ∀ e' ∈ existing, e.2 = e'.2 → e = e'
  unused : ∀ e ∈ existing, ordinal ≤ e.1.1 → ∀ c ∈ db.chunks, c.stableId ≠ e.2

namespace Insertable

variable {documentId : String} {existing : List ((Nat × String) × String)} {ordinal : Nat}

/-- The loop may start once the chunks of the document are deleted. -/
theorem start (h : SoundChunks env db) (id : String) :
    Insertable env id (existingChunks db id) 0 (deleteChunks db id) := by
  have hrow : ∀ e ∈ existingChunks db id, ∃ c ∈ db.chunks, c.documentId = id ∧
      ((c.ordinal, c.content), c.stableId) = e := by
    intro e he
    obtain ⟨c, hc, heq⟩ := List.mem_map.mp he
    obtain ⟨hmem, hdocument⟩ := List.mem_filter.mp hc
    exact ⟨c, hmem, by simpa using hdocument, heq⟩
  refine ⟨h.deleteChunks id, ?_, ?_, ?_, ?_⟩
  · intro c hc hdocument
    exact absurd hdocument (Table.mem_delete.mp hc).2
  · intro e he
    obtain ⟨c, hc, _, rfl⟩ := hrow e he
    exact h.drawn c hc
  · intro e he e' he' hstable
    obtain ⟨c, hc, _, rfl⟩ := hrow e he
    obtain ⟨c', hc', _, rfl⟩ := hrow e' he'
    rw [h.stable c hc c' hc' hstable]
  · intro e he _ c' hc' hstable
    obtain ⟨c, hc, hdocument, rfl⟩ := hrow e he
    obtain ⟨hc', hother⟩ := Table.mem_delete.mp hc'
    obtain rfl := h.stable c' hc' c hc hstable
    exact hother hdocument

theorem draw (h : Insertable env documentId existing ordinal db) :
    Insertable env documentId existing ordinal { db with idsDrawn := db.idsDrawn + 1 } where
  sound := h.sound.same rfl rfl (Nat.le_succ _)
  front := h.front
  drawn e he := (h.drawn e he).mono (Nat.le_succ _)
  distinct := h.distinct
  unused := h.unused

/-- One turn of the loop, under an unused identifier that no later position has. -/
theorem turn (h : Insertable env documentId existing ordinal db) {stableId : String}
    {embedding : Option (String × Nat)} (hdimensions : ∀ p ∈ embedding, p.2 ≠ 0) (chunk : EmbeddedChunk)
    (hunused : ∀ c ∈ db.chunks, c.stableId ≠ stableId) (hdrawn : Drawn env db stableId)
    (hlater : ∀ e ∈ existing, ordinal + 1 ≤ e.1.1 → stableId ≠ e.2) :
    ∃ db', insertEmbeddedChunk documentId embedding ordinal chunk stableId db = .ok db' ∧
      Insertable env documentId existing (ordinal + 1) db' := by
  have hplace : ∀ c ∈ db.chunks, c.documentId = documentId → c.ordinal ≠ ordinal :=
    fun c hc hdocument => (h.front c hc hdocument).ne
  obtain ⟨db', hinsert, hsound, hadds, hids⟩ :=
    insertEmbeddedChunk_commits h.sound hdimensions hplace hunused hdrawn
  refine ⟨db', hinsert, hsound, ?_, fun e he => (h.drawn e he).mono hids.ge, h.distinct, ?_⟩
  · intro c hc hdocument
    rcases hadds c hc with hold | ⟨_, hordinal, _⟩
    · exact (h.front c hold hdocument).trans (Nat.lt_succ_self _)
    · exact hordinal ▸ Nat.lt_succ_self _
  · intro e he hle c hc
    rcases hadds c hc with hold | ⟨_, _, hstable⟩
    · exact h.unused e he ((Nat.le_succ _).trans hle) c hold
    · exact hstable ▸ hlater e he hle

end Insertable

/-- The chunks of a publication are inserted, whatever they are. -/
theorem insertChunks_commits {documentId : String} {embedding : Option (String × Nat)}
    {existing : List ((Nat × String) × String)} {ordinal : Nat} (h : Insertable env documentId existing ordinal db)
    (hdimensions : ∀ p ∈ embedding, p.2 ≠ 0) (chunks : List EmbeddedChunk) :
    ∃ db', insertChunks env documentId embedding existing ordinal chunks db = .ok db' ∧ SoundChunks env db' := by
  induction chunks generalizing ordinal db with
  | nil => exact ⟨db, rfl, h.sound⟩
  | cons chunk rest ih =>
    rw [insertChunks]
    cases hlookup : existing.lookup (ordinal, chunk.content) with
    | some stableId =>
      have hentry : ((ordinal, chunk.content), stableId) ∈ existing := by
        obtain ⟨l₁, l₂, rfl, _⟩ := List.lookup_eq_some_iff.mp hlookup
        simp
      have hlater : ∀ e ∈ existing, ordinal + 1 ≤ e.1.1 → stableId ≠ e.2 := by
        intro e he hle hstable
        obtain rfl := h.distinct _ hentry e he hstable
        exact absurd hle (Nat.not_succ_le_self _)
      obtain ⟨dbc, hinsert, hnext⟩ :=
        h.turn hdimensions chunk (h.unused _ hentry (le_refl _)) (h.drawn _ hentry) hlater
      simp only [hinsert]
      exact ih hnext
    | none =>
      have hunused : ∀ c ∈ db.chunks, c.stableId ≠ env.generateId db.idsDrawn :=
        fun c hc => (h.sound.drawn c hc).ne_next
      have hdrawn : Drawn env { db with idsDrawn := db.idsDrawn + 1 } (env.generateId db.idsDrawn) :=
        ⟨db.idsDrawn, Nat.lt_succ_self _, rfl⟩
      have hlater : ∀ e ∈ existing, ordinal + 1 ≤ e.1.1 → env.generateId db.idsDrawn ≠ e.2 :=
        fun e he _ heq => (h.drawn e he).ne_next heq.symm
      obtain ⟨dbc, hinsert, hnext⟩ := h.draw.turn hdimensions chunk hunused hdrawn hlater
      simp only [hinsert]
      exact ih hnext

-- ---------------------------------------------------------------------------
-- Runs
-- ---------------------------------------------------------------------------

namespace SoundChunks

theorem insertJob {documentId : String} {kind : JobKind} {revision : Nat} (h : SoundChunks env db)
    (hinsert : db.insertJob env now documentId kind revision = .ok db') : SoundChunks env db' := by
  obtain ⟨_, jobs, _, rfl⟩ := insertJob_ok hinsert
  exact h.same rfl rfl (Nat.le_succ _)

theorem enqueue {id : String} {enqueued : Bool} (h : SoundChunks env db)
    (henqueue : enqueueUnlessActive env now db id = .ok (enqueued, db')) : SoundChunks env db' := by
  rcases enqueueUnlessActive_ok henqueue with ⟨_, rfl⟩ | ⟨_, _, _, _, hinsert⟩
  · exact h
  · exact h.insertJob hinsert

theorem upsertDocument {orgId : String} {input : UpsertDocument} {result : UpsertResult} (h : SoundChunks env db)
    (hupsert : upsertDocumentFor env now orgId input db = .ok (result, db')) : SoundChunks env db' := by
  obtain ⟨_, _, ⟨existing, _, happly⟩ | hnew⟩ := upsertDocumentFor_ok hupsert
  · rcases applyExisting_ok happly with rfl | ⟨metadata, rfl⟩ | ⟨_, hrequeue⟩
    · exact h
    · exact h.same rfl rfl (le_refl _)
    · obtain ⟨_, dbu, _, hupdate, henqueue⟩ := requeue_ok hrequeue
      have hupdated : SoundChunks env dbu := by
        obtain rfl := updateFull_ok hupdate
        exact h.same rfl rfl (le_refl _)
      exact hupdated.enqueue henqueue
  · obtain ⟨document, documents, _, _, _, _, _, henqueue⟩ := insertNew_ok hnew
    have hinserted : SoundChunks env { db with documents, idsDrawn := db.idsDrawn + 1 } :=
      h.same rfl rfl (Nat.le_succ _)
    exact hinserted.enqueue henqueue

/-- A publication that commits leaves sound chunks. -/
theorem publishJob {job : ClaimedJob} {chunks : List EmbeddedChunk} {embedding : Option (String × Nat)}
    {schedule : Bool} (h : SoundChunks env db) (hdimensions : ∀ p ∈ embedding, p.2 ≠ 0)
    (hpublish : publishJob env now job chunks embedding schedule db = .ok db') : SoundChunks env db' := by
  obtain ⟨dbc, hinsert, hsound⟩ := insertChunks_commits (Insertable.start h job.documentId) hdimensions chunks
  obtain ⟨_, dbc', hinsert', hfinish⟩ := publishJob_inserts hpublish
  obtain rfl := Except.ok.inj (hinsert.symm.trans hinsert')
  have hfinished : SoundChunks env (finishJob dbc job.id job.revision) := hsound.same rfl rfl (le_refl _)
  cases schedule with
  | false =>
    obtain rfl : db' = _ := hfinish
    exact hfinished.same rfl rfl (le_refl _)
  | true =>
    obtain ⟨_, hjob, rfl⟩ := hfinish
    exact (hfinished.insertJob hjob).same rfl rfl (le_refl _)

theorem retryMemoryJob {m : ClaimedMemoryJob} {errorKind error : String} {retryDelay : Option Nat}
    (h : SoundChunks env db) (hretry : retryMemoryJob now m errorKind error retryDelay db = .ok db') :
    SoundChunks env db' := by
  rcases retryMemoryJob_ok hretry with ⟨_, rfl⟩ | ⟨_, _, _, ⟨_, rfl⟩ | rfl⟩
  · exact h.same rfl rfl (le_refl _)
  · exact h.same rfl rfl (le_refl _)
  · exact h.same rfl rfl (le_refl _)

theorem completeMemoryJob {m : ClaimedMemoryJob} (h : SoundChunks env db)
    (hcomplete : completeMemoryJob m db = .ok db') : SoundChunks env db' := by
  rcases completeMemoryJob_ok hcomplete with ⟨_, rfl⟩ | ⟨_, _, rfl⟩
  · exact h.same rfl rfl (le_refl _)
  · exact h.same rfl rfl (le_refl _)

theorem reconcileMemories {batch : Batch} {expectedRevision : Option Nat} {completionJobId : Option String}
    {proposals : List MemoryProposal} {records : List MemoryRecord} (h : SoundChunks env db)
    (hreconcile : reconcileMemoriesFor env now batch expectedRevision completionJobId proposals db =
      .ok (records, db')) : SoundChunks env db' := by
  obtain ⟨source, _, _, _, t, hloop, _, hfinish⟩ := reconcileMemoriesFor_ok hreconcile
  have hmemories : MemoriesOnly db t.db := reconcileProposals_memoriesOnly hloop
  have hreconciled : SoundChunks env t.db := h.same hmemories.chunks hmemories.chunkEmbeddings hmemories.idsDrawn
  rcases hfinish with ⟨_, rfl⟩ | ⟨jobId, _, hfinish⟩
  · exact hreconciled
  · obtain ⟨_, rfl⟩ := finishReconciliation_ok hfinish
    exact hreconciled.same rfl rfl (le_refl _)

/-- Every call leaves sound chunks, whether it commits or fails. -/
theorem run (h : SoundChunks env db) (now : Time) (call : Call) : SoundChunks env (call.run env now db).2 := by
  have heffect := call.effect env now db
  generalize call.run env now db = r at heffect ⊢
  cases heffect with
  | failed | nothing => exact h
  | upserted hr => exact h.upsertDocument hr
  | claimed hr =>
    obtain ⟨_, _, _, _, _, _, _, _, _, rfl⟩ := claimJob_some hr
    exact h.same rfl rfl (le_refl _)
  | staged hr =>
    obtain ⟨_, _, _, _, rfl⟩ := markJobStage_ok hr
    exact h.same rfl rfl (le_refl _)
  | published _ _ hdimensions hr => exact h.publishJob hdimensions hr
  | failedJob => exact h.same rfl rfl (le_refl _)
  | deletedEmpty => exact h.deleteDocument _
  | deleted => exact h.deleteDocument _
  | claimedMemory hr =>
    obtain ⟨_, _, _, _, _, _, _, _, _, _, _, rfl⟩ := claimMemoryJob_some hr
    exact h.same rfl rfl (le_refl _)
  | @cached job result =>
    rcases cacheMemoryExtraction_cases job result db with ⟨_, heq⟩ | ⟨_, heq⟩
    · rw [heq]
      exact h.same rfl rfl (le_refl _)
    · rw [heq]
      exact h.same rfl rfl (le_refl _)
  | completedMemory hr => exact h.completeMemoryJob hr
  | retried hr => exact h.retryMemoryJob hr
  | reconciled hr => exact h.reconcileMemories hr
  | forgot hr =>
    obtain ⟨_, _, _, _, rfl⟩ := forgetMemoryFor_ok hr
    exact h.same rfl rfl (le_refl _)
  | opened hr =>
    obtain ⟨_, _, hdrawn, rfl⟩ := openStorage_ok hr
    exact h.same rfl rfl hdrawn

end SoundChunks

/-- In every reachable state the chunk tables are sound. -/
theorem soundChunks_of_reachable {s : System} (h : (machine env).Reachable s) : SoundChunks env s.db := by
  refine h.invariant (I := fun s => SoundChunks env s.db) ?_ ?_
  · rintro s ⟨organizations, rfl⟩
    constructor <;> simp
  · intro s event s' _ hs hstep
    obtain ⟨_, rfl⟩ := machine_step.mp hstep
    rw [System.after_db]
    exact hs.run event.1 event.2

end Storage
