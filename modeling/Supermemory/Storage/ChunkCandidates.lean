-- SUMMARY: Ranking chunks by row identifiers and reading them again, and the row identifiers that publications use again.
import Supermemory.Storage.ChunkRows
import Supermemory.Storage.Discipline
import Supermemory.Storage.Search

/-!
# Chunk candidates

A ranking returns the row identifiers of chunks, and a later statement reads the rows
that have them then. The identifier of a new row is one more than the largest there is,
so a publication may give the identifiers of deleted rows to other chunks.
-/

namespace Storage

-- ---------------------------------------------------------------------------
-- Ranking and hydration
-- ---------------------------------------------------------------------------

/-- A ranked chunk. -/
structure ChunkCandidate (σ : Type*) where
  chunkId : Nat
  stableId : String
  documentId : String
  ordinal : Nat
  semanticScore : Option σ
  lexicalRank : Option Nat
  deriving DecidableEq

section Engine

variable {σ φ : Type*}

def readCandidate (semanticScore : Option σ) (lexicalRank : Option Nat) (c : Chunk) (d : Document) :
    ChunkCandidate σ :=
  { chunkId := c.id, stableId := c.stableId, documentId := d.id, ordinal := c.ordinal, semanticScore, lexicalRank }

/-- `ORDER BY .., documents.id, document_chunks.ordinal, document_chunks.stable_id`, after the score. -/
def earlierChunk (a b : Chunk × Document) : Prop :=
  a.2.id < b.2.id ∨ a.2.id = b.2.id ∧
    (a.1.ordinal < b.1.ordinal ∨ a.1.ordinal = b.1.ordinal ∧ a.1.stableId ≤ b.1.stableId)

instance : DecidableRel earlierChunk := fun _ _ => inferInstanceAs (Decidable (_ ∨ _))

/-- Ranks document chunks without materializing chunk text or document records. -/
def searchChunkCandidates [LinearOrder σ] (env : Env) (vectorDot : List (BitVec 8) → List (BitVec 8) → σ)
    (matchesMetadataFilter : Object → φ → Bool) (orgId : String) (query : List F32) (modelId : String)
    (limit : Nat) (threshold : σ) (options : SearchOptions φ) (db : Database) :
    Except StorageError (List (ChunkCandidate σ)) :=
  match validateVector env query query.length with
  | .error e => .error e
  | .ok () =>
    let score : Chunk → Document → Option σ := fun c d =>
      ((db.chunkEmbeddings.find c.id).filter fun e =>
          e.modelId = modelId ∧ e.dimensions = query.length ∧
            options.Allows matchesMetadataFilter d ∧ threshold ≤ vectorDot e.vector (vectorBytes query)).map
        fun e => vectorDot e.vector (vectorBytes query)
    let better : Chunk × Document × σ → Chunk × Document × σ → Prop := fun a b =>
      b.2.2 < a.2.2 ∨ a.2.2 = b.2.2 ∧ earlierChunk (a.1, a.2.1) (b.1, b.2.1)
    have : DecidableRel better := fun _ _ => inferInstanceAs (Decidable (_ ∨ _))
    .ok ((((scored score (doneChunks db orgId)).insertionSort better).take limit).map
      fun (c, d, s) => readCandidate (some s) none c d)

/-- Lexically ranks narrow document chunk candidates without hydrating their text. -/
def searchChunkLexicalCandidates [LinearOrder σ] (bm25 : List Chunk → String → Chunk → Option σ)
    (matchesMetadataFilter : Object → φ → Bool) (orgId query : String) (limit : Nat)
    (options : SearchOptions φ) (db : Database) : List (ChunkCandidate σ) :=
  let phrase := "\"" ++ query.replace "\"" "\"\"" ++ "\""
  let score : Chunk → Document → Option σ := fun c d =>
    if options.Allows matchesMetadataFilter d then bm25 db.chunks.rows phrase c else none
  let better : Chunk × Document × σ → Chunk × Document × σ → Prop := fun a b =>
    a.2.2 < b.2.2 ∨ a.2.2 = b.2.2 ∧ earlierChunk (a.1, a.2.1) (b.1, b.2.1)
  have : DecidableRel better := fun _ _ => inferInstanceAs (Decidable (_ ∨ _))
  (((scored score (doneChunks db orgId)).insertionSort better).take limit).zipIdx.map
    fun ((c, d, _), rank) => readCandidate none (some (rank + 1)) c d

/-- `document_chunks JOIN documents WHERE document_chunks.id=?`. -/
def chunkRow (db : Database) (chunkId : Nat) : Option (Chunk × Document) :=
  (db.chunks.find chunkId).bind fun c => (db.documents.find c.documentId).map fun d => (c, d)

/-- The score of the last candidate with a row identifier. -/
def candidateScore [Zero σ] (candidates : List (ChunkCandidate σ)) (chunkId : Nat) : σ :=
  ((candidates.reverse.find? fun candidate => candidate.chunkId = chunkId).bind (·.semanticScore)).getD 0

/-- Hydrates selected chunk candidates while preserving their ranked order. A row is read once. -/
def hydrateChunks [Zero σ] (candidates : List (ChunkCandidate σ)) (fullDocument : Bool) (db : Database) :
    List (SearchHit σ) :=
  (candidates.map (·.chunkId)).eraseDups.filterMap fun chunkId =>
    (chunkRow db chunkId).map fun (c, d) =>
      { readHit (candidateScore candidates chunkId) c d with
        documentContent := if fullDocument then d.content else "" }

end Engine

-- ---------------------------------------------------------------------------
-- The rows of a publication
-- ---------------------------------------------------------------------------

/-- The largest row identifier of a chunk. -/
def lastChunkId (db : Database) : Nat := (db.chunks.rows.map Chunk.id).foldr max 0

/-- The largest row identifier of the chunks of other documents. -/
def lastOtherChunkId (db : Database) (documentId : String) : Nat := lastChunkId (deleteChunks db documentId)

/-- A row that a publication inserts: its place among the chunks decides its row identifier, and the stable
    identifier is that of the same chunk at the same place before, or a new one. -/
structure PublishedRow (env : Env) (db : Database) (documentId : String) (contents : List String) (c : Chunk) :
    Prop where
  document : c.documentId = documentId
  place : (c.content, c.ordinal) ∈ contents.zipIdx
  id : c.id = lastOtherChunkId db documentId + 1 + c.ordinal
  stable : (existingChunks db documentId).lookup (c.ordinal, c.content) = some c.stableId ∨
    (existingChunks db documentId).lookup (c.ordinal, c.content) = none ∧ ¬ Drawn env db c.stableId

variable {env : Env} {now : Time} {db db' : Database}

theorem insertChunk_row {documentId content stableId : String} {ordinal chunkId : Nat}
    (h : insertChunk db documentId ordinal content stableId = .ok (chunkId, db')) :
    db'.chunks.rows = db.chunks.rows ++ [⟨lastChunkId db + 1, documentId, ordinal, content, stableId⟩] ∧
      db'.documents = db.documents ∧ db'.idsDrawn = db.idsDrawn := by
  unfold insertChunk at h
  simp only at h
  split at h
  · cases h
  · split at h
    · cases h
    · rename_i chunks hinsert
      cases h
      exact ⟨Table.insert_rows hinsert, rfl, rfl⟩

theorem insertEmbeddedChunk_row {documentId stableId : String} {embedding : Option (String × Nat)}
    {ordinal : Nat} {chunk : EmbeddedChunk}
    (h : insertEmbeddedChunk documentId embedding ordinal chunk stableId db = .ok db') :
    db'.chunks.rows = db.chunks.rows ++ [⟨lastChunkId db + 1, documentId, ordinal, chunk.content, stableId⟩] ∧
      db'.documents = db.documents ∧ db'.idsDrawn = db.idsDrawn := by
  unfold insertEmbeddedChunk at h
  split at h
  · cases h
  · rename_i chunkId dbc hinsert
    have hrow := insertChunk_row hinsert
    split at h
    · cases h
      exact hrow
    · obtain ⟨_, rfl⟩ := insertChunkEmbedding_ok h
      exact hrow

theorem lastChunkId_append {c : Chunk} (hrows : db'.chunks.rows = db.chunks.rows ++ [c])
    (hid : c.id = lastChunkId db + 1) : lastChunkId db' = lastChunkId db + 1 := by
  have hfold (ids : List Nat) : (ids ++ [ids.foldr max 0 + 1]).foldr max 0 = ids.foldr max 0 + 1 := by
    have hinit (first : Nat) : ids.foldr max first = max (ids.foldr max 0) first := by
      induction ids with
      | nil => exact (Nat.zero_max first).symm
      | cons id rest ih => simp only [List.foldr_cons, ih, max_assoc]
    rw [List.foldr_append, hinit]
    simp
  rw [lastChunkId, hrows, List.map_append, List.map_singleton, hid]
  exact hfold _

/-- The inserted rows have consecutive row identifiers, after the largest one. -/
theorem insertChunks_rows {documentId : String} {embedding : Option (String × Nat)}
    {existing : List ((Nat × String) × String)} {ordinal : Nat} {chunks : List EmbeddedChunk}
    (h : insertChunks env documentId embedding existing ordinal chunks db = .ok db') :
    db'.documents = db.documents ∧ db.idsDrawn ≤ db'.idsDrawn ∧
    ∃ rows, db'.chunks.rows = db.chunks.rows ++ rows ∧
      rows.map (fun c => (c.content, c.ordinal)) = (chunks.map (·.content)).zipIdx ordinal ∧
      ∀ c ∈ rows, c.documentId = documentId ∧ c.id + ordinal = lastChunkId db + 1 + c.ordinal ∧
        (existing.lookup (c.ordinal, c.content) = some c.stableId ∨
          existing.lookup (c.ordinal, c.content) = none ∧ ¬ Drawn env db c.stableId) := by
  induction chunks generalizing ordinal db with
  | nil =>
    cases h
    exact ⟨rfl, le_refl _, [], by simp⟩
  | cons chunk rest ih =>
    obtain ⟨stableId, idsDrawn, dbc, hchoice, hinsert, hloop⟩ := insertChunks_cons h
    obtain ⟨hrow, hdocument, hdrawn⟩ := insertEmbeddedChunk_row hinsert
    obtain ⟨hdocuments, hmore, rows, hrows, hplaces, hspec⟩ := ih hloop
    have hdrawn' : db.idsDrawn ≤ dbc.idsDrawn := by
      rw [hdrawn]
      rcases hchoice with ⟨_, rfl⟩ | ⟨_, _, rfl⟩
      · exact le_refl _
      · exact Nat.le_succ _
    have hlast : lastChunkId dbc = lastChunkId db + 1 := lastChunkId_append hrow rfl
    refine ⟨hdocuments.trans hdocument, hdrawn'.trans hmore,
      ⟨lastChunkId db + 1, documentId, ordinal, chunk.content, stableId⟩ :: rows, ?_, ?_, ?_⟩
    · rw [hrows, hrow, List.append_assoc]
      rfl
    · simp only [List.map_cons, List.zipIdx_cons, hplaces]
    · intro c hc
      rcases List.mem_cons.mp hc with rfl | hc
      · refine ⟨rfl, rfl, ?_⟩
        rcases hchoice with ⟨hlookup, _⟩ | ⟨hlookup, rfl, _⟩
        · exact .inl hlookup
        · exact .inr ⟨hlookup, fun hold => hold.ne_next rfl⟩
      · obtain ⟨hdoc, hid, hstable⟩ := hspec c hc
        refine ⟨hdoc, by omega, hstable.imp_right ?_⟩
        exact fun hnew => ⟨hnew.1, fun hold => hnew.2 (hold.mono hdrawn')⟩

theorem publishJob_rows {job : ClaimedJob} {chunks : List EmbeddedChunk} {embedding : Option (String × Nat)}
    {schedule : Bool} (h : publishJob env now job chunks embedding schedule db = .ok db') :
    (∀ c ∈ db'.chunks, c ∈ db.chunks ∨ PublishedRow env db job.documentId (chunks.map (·.content)) c) ∧
    ∀ place ∈ (chunks.map (·.content)).zipIdx, ∃ c ∈ db'.chunks, (c.content, c.ordinal) = place ∧
      PublishedRow env db job.documentId (chunks.map (·.content)) c := by
  obtain ⟨_, dbc, hloop, hfinish⟩ := publishJob_inserts h
  have hchunks : db'.chunks = dbc.chunks := by
    cases schedule with
    | false =>
      obtain rfl : db' = _ := hfinish
      rfl
    | true =>
      obtain ⟨_, hinsert, rfl⟩ := hfinish
      obtain ⟨_, _, _, rfl⟩ := insertJob_ok hinsert
      rfl
  obtain ⟨_, _, rows, hrows, hplaces, hspec⟩ := insertChunks_rows hloop
  have hpublished : ∀ c ∈ rows, PublishedRow env db job.documentId (chunks.map (·.content)) c := by
    intro c hc
    obtain ⟨hdocument, hid, hstable⟩ := hspec c hc
    exact ⟨hdocument, hplaces ▸ List.mem_map_of_mem hc, hid, hstable⟩
  have hmem {c : Chunk} : c ∈ db'.chunks ↔ c ∈ (deleteChunks db job.documentId).chunks ∨ c ∈ rows := by
    rw [← Table.mem_rows, hchunks, hrows]
    exact List.mem_append
  constructor
  · intro c hc
    rcases hmem.mp hc with hold | hnew
    · exact .inl (Table.mem_delete.mp hold).1
    · exact .inr (hpublished c hnew)
  · intro place hplace
    obtain ⟨c, hc, heq⟩ := List.mem_map.mp (hplaces ▸ hplace)
    exact ⟨c, hmem.mpr (.inr hc), heq, hpublished c hc⟩

-- ---------------------------------------------------------------------------
-- Calls
-- ---------------------------------------------------------------------------

/-- Documents stay with their organization, and a new one has a new identifier. -/
def SameOwners (env : Env) (db db' : Database) : Prop :=
  ∀ d' ∈ db'.documents, (∃ d ∈ db.documents, d.id = d'.id ∧ d.orgId = d'.orgId) ∨ ¬ Drawn env db d'.id

/-- What a call that inserts no chunk leaves of the rows that a search reads. -/
structure KeepsRows (env : Env) (db db' : Database) : Prop where
  owners : SameOwners env db db'
  chunk : ∀ c ∈ db'.chunks, c ∈ db.chunks

theorem SameOwners.update {p : Document → Prop} [DecidablePred p] {f : Document → Document}
    (hrows : db'.documents.rows = db.documents.rows.map fun d => if p d then f d else d)
    (hf : ∀ d, (f d).id = d.id ∧ (f d).orgId = d.orgId) : SameOwners env db db' := by
  intro d' hd'
  rw [← Table.mem_rows, hrows] at hd'
  obtain ⟨d, hd, rfl⟩ := List.mem_map.mp hd'
  refine .inl ⟨d, hd, ?_⟩
  split
  · exact ⟨(hf d).1.symm, (hf d).2.symm⟩
  · exact ⟨rfl, rfl⟩

namespace KeepsRows

theorem same (hdocuments : db'.documents = db.documents) (hchunks : db'.chunks = db.chunks) :
    KeepsRows env db db' :=
  ⟨fun d hd => .inl ⟨d, hdocuments ▸ hd, rfl, rfl⟩, fun _ hc => hchunks ▸ hc⟩

theorem update {p : Document → Prop} [DecidablePred p] {f : Document → Document}
    (hrows : db'.documents.rows = db.documents.rows.map fun d => if p d then f d else d)
    (hf : ∀ d, (f d).id = d.id ∧ (f d).orgId = d.orgId) (hchunks : db'.chunks = db.chunks) :
    KeepsRows env db db' :=
  ⟨.update hrows hf, fun _ hc => hchunks ▸ hc⟩

theorem recoverDocuments {kind : JobKind} {status : DocumentState} :
    KeepsRows env db (recoverDocuments db kind status) :=
  update rfl (fun _ => ⟨rfl, rfl⟩) rfl

theorem deleteDocument (db : Database) (id : String) : KeepsRows env db (db.deleteDocument id) where
  owners d hd := .inl ⟨d, (Table.mem_delete.mp hd).1, rfl, rfl⟩
  chunk _ hc := (Table.mem_delete.mp hc).1

theorem trans {db₁ db₂ db₃ : Database} (h : KeepsRows env db₁ db₂) (h' : KeepsRows env db₂ db₃)
    (hdrawn : db₁.idsDrawn ≤ db₂.idsDrawn) : KeepsRows env db₁ db₃ where
  owners d₃ hd₃ := by
    rcases h'.owners d₃ hd₃ with ⟨d₂, hd₂, hid, horg⟩ | hnew
    · rcases h.owners d₂ hd₂ with ⟨d₁, hd₁, hid', horg'⟩ | hnew
      · exact .inl ⟨d₁, hd₁, hid'.trans hid, horg'.trans horg⟩
      · exact .inr (hid ▸ hnew)
    · exact .inr fun hold => hnew (hold.mono hdrawn)
  chunk c hc := h.chunk c (h'.chunk c hc)

theorem updateFull {id hash : String} {input : UpsertDocument} {metadata : Object} {status : DocumentState}
    (h : updateFull db id input hash metadata status = .ok db') : KeepsRows env db db' := by
  obtain rfl := updateFull_ok h
  exact update rfl (fun _ => ⟨rfl, rfl⟩) rfl

theorem enqueue {id : String} {enqueued : Bool}
    (h : enqueueUnlessActive env now db id = .ok (enqueued, db')) : KeepsRows env db db' := by
  rcases enqueueUnlessActive_ok h with ⟨_, rfl⟩ | ⟨_, _, _, _, hinsert⟩
  · exact same rfl rfl
  · obtain ⟨_, _, _, rfl⟩ := insertJob_ok hinsert
    exact same rfl rfl

theorem upsertDocument {orgId : String} {input : UpsertDocument} {result : UpsertResult}
    (h : upsertDocumentFor env now orgId input db = .ok (result, db')) : KeepsRows env db db' := by
  obtain ⟨_, _, ⟨existing, _, happly⟩ | hnew⟩ := upsertDocumentFor_ok h
  · rcases applyExisting_ok happly with rfl | ⟨metadata, rfl⟩ | ⟨_, hrequeue⟩
    · exact same rfl rfl
    · exact update rfl (fun _ => ⟨rfl, rfl⟩) rfl
    · obtain ⟨_, dbu, _, hupdate, henqueue⟩ := requeue_ok hrequeue
      have hdrawn : dbu.idsDrawn = db.idsDrawn := by
        rw [updateFull_ok hupdate]
        rfl
      exact (updateFull hupdate).trans (enqueue henqueue) hdrawn.ge
  · obtain ⟨document, documents, _, hid, _, _, hinsert, henqueue⟩ := insertNew_ok hnew
    have hinserted : KeepsRows env db { db with documents, idsDrawn := db.idsDrawn + 1 } := by
      refine ⟨fun d hd => ?_, fun _ hc => hc⟩
      rcases (Table.mem_insert hinsert).mp hd with hd | rfl
      · exact .inl ⟨d, hd, rfl, rfl⟩
      · exact .inr fun hold => hold.ne_next hid
    exact hinserted.trans (enqueue henqueue) (Nat.le_succ _)

theorem openStorage {orgId : String} (h : openStorage env now db = .ok (orgId, db')) : KeepsRows env db db' := by
  obtain ⟨organizations, idsDrawn, hdrawn, rfl⟩ := openStorage_ok h
  have hrecovered : KeepsRows env db (Storage.recoverDocuments (failStaleMemoryJobs (requeueJobs now
      { db with organizations, idsDrawn })) .document .queued) := update rfl (fun _ => ⟨rfl, rfl⟩) rfl
  exact hrecovered.trans recoverDocuments hdrawn

theorem reconcile {batch : Batch} {expectedRevision : Option Nat} {completionJobId : Option String}
    {proposals : List MemoryProposal} {records : List MemoryRecord}
    (h : reconcileMemoriesFor env now batch expectedRevision completionJobId proposals db =
      .ok (records, db')) : KeepsRows env db db' := by
  obtain ⟨_, _, _, _, t, hloop, _, hfinish⟩ := reconcileMemoriesFor_ok h
  have hmemories : MemoriesOnly db t.db := reconcileProposals_memoriesOnly hloop
  rcases hfinish with ⟨_, rfl⟩ | ⟨_, _, hfinish⟩
  · exact same hmemories.documents hmemories.chunks
  · rw [(finishReconciliation_ok hfinish).2]
    have hstarted : KeepsRows env db t.db := same hmemories.documents hmemories.chunks
    exact hstarted.trans (update rfl (fun _ => ⟨rfl, rfl⟩) rfl) hmemories.idsDrawn

end KeepsRows

/-- What a call leaves of the rows that a search reads. -/
structure RowStep (env : Env) (call : Call) (db db' : Database) : Prop where
  owners : SameOwners env db db'
  chunk : ∀ c ∈ db'.chunks, c ∈ db.chunks ∨ ∃ p ∈ call.published, PublishedRow env db p.1.documentId p.2 c

namespace RowStep

variable {call : Call}

theorem of_keeps (h : KeepsRows env db db') : RowStep env call db db' := ⟨h.owners, fun c hc => .inl (h.chunk c hc)⟩

theorem publishJob {job : ClaimedJob} {chunks : List EmbeddedChunk} {embedding : Option (String × Nat)}
    {schedule : Bool} (h : publishJob env now job chunks embedding schedule db = .ok db')
    (hpublished : call.published = some (job, chunks.map (·.content))) : RowStep env call db db' where
  owners := .update (congrArg Table.rows (publishJob_ok h).document.1) fun _ => ⟨rfl, rfl⟩
  chunk c hc := ((publishJob_rows h).1 c hc).imp_right fun hrow => ⟨_, hpublished, hrow⟩

/-- Only publications insert chunks. -/
theorem run (env : Env) (now : Time) (call : Call) (db : Database) : RowStep env call db (call.run env now db).2 := by
  have heffect := call.effect env now db
  generalize call.run env now db = r at heffect ⊢
  cases heffect with
  | failed | nothing => exact of_keeps (.same rfl rfl)
  | upserted hr => exact of_keeps (.upsertDocument hr)
  | claimed hr =>
    obtain ⟨_, _, _, _, _, _, _, _, _, rfl⟩ := claimJob_some hr
    exact of_keeps (.update rfl (fun _ => ⟨rfl, rfl⟩) rfl)
  | staged hr =>
    obtain ⟨_, _, _, _, rfl⟩ := markJobStage_ok hr
    exact of_keeps (.update rfl (fun _ => ⟨rfl, rfl⟩) rfl)
  | published _ hpublished _ hr => exact publishJob hr hpublished
  | failedJob => exact of_keeps (.update rfl (fun _ => ⟨rfl, rfl⟩) rfl)
  | deletedEmpty => exact of_keeps (.deleteDocument db _)
  | deleted => exact of_keeps (.deleteDocument db _)
  | claimedMemory hr =>
    obtain ⟨_, _, _, _, _, _, _, _, _, _, _, rfl⟩ := claimMemoryJob_some hr
    exact of_keeps (.same rfl rfl)
  | @cached job result =>
    rcases cacheMemoryExtraction_cases job result db with ⟨_, heq⟩ | ⟨_, heq⟩
    · rw [heq]
      exact of_keeps (.same rfl rfl)
    · rw [heq]
      exact of_keeps (.same rfl rfl)
  | completedMemory hr =>
    rcases completeMemoryJob_ok hr with ⟨_, rfl⟩ | ⟨_, _, rfl⟩
    · exact of_keeps (.same rfl rfl)
    · exact of_keeps (.update rfl (fun _ => ⟨rfl, rfl⟩) rfl)
  | retried hr =>
    rcases retryMemoryJob_ok hr with ⟨_, rfl⟩ | ⟨_, _, _, ⟨_, rfl⟩ | rfl⟩
    · exact of_keeps (.same rfl rfl)
    · exact of_keeps (.same rfl rfl)
    · exact of_keeps (.update rfl (fun _ => ⟨rfl, rfl⟩) rfl)
  | reconciled hr => exact of_keeps (.reconcile hr)
  | forgot hr =>
    obtain ⟨_, _, _, _, rfl⟩ := forgetMemoryFor_ok hr
    exact of_keeps (.same rfl rfl)
  | opened hr => exact of_keeps (.openStorage hr)

end RowStep

-- ---------------------------------------------------------------------------
-- Reading ranked rows again
-- ---------------------------------------------------------------------------

section Hydration

variable {σ φ : Type*} {candidates : List (ChunkCandidate σ)} {orgId : String}

/-- The call publishes chunks, and the row identifier of a candidate goes to one of them that is not a ranked
    chunk: its place is past the chunks of the other documents, and the chunk was not there before. -/
def Recycles (env : Env) (candidates : List (ChunkCandidate σ)) (s : System) (event : Time × Call) : Prop :=
  (event.2.run env event.1 s.db).1.isOk = true ∧ ∃ p ∈ event.2.published, ∃ place ∈ p.2.zipIdx,
    lastOtherChunkId s.db p.1.documentId + 1 + place.2 ∈ candidates.map (·.chunkId) ∧
    ∀ stableId ∈ (existingChunks s.db p.1.documentId).lookup (place.2, place.1),
      stableId ∉ candidates.map (·.stableId)

instance (env : Env) (candidates : List (ChunkCandidate σ)) (s : System) (event : Time × Call) :
    Decidable (Recycles env candidates s event) := inferInstanceAs (Decidable (_ ∧ _))

/-- The candidate is a chunk of a document of the organization. -/
def RankedRow (db : Database) (orgId : String) (k : ChunkCandidate σ) : Prop :=
  ∃ c d, c ∈ db.chunks ∧ d ∈ db.documents ∧ d.id = c.documentId ∧ d.orgId = orgId ∧
    k.chunkId = c.id ∧ k.stableId = c.stableId ∧ k.documentId = d.id

theorem rankedRow_of_scored {score : Chunk → Document → Option σ} {c : Chunk} {d : Document} {s : σ}
    {semanticScore : Option σ} {lexicalRank : Option Nat} (h : (c, d, s) ∈ scored score (doneChunks db orgId)) :
    RankedRow db orgId (readCandidate semanticScore lexicalRank c d) := by
  obtain ⟨hc, hd, hid, horg, _⟩ := mem_doneChunks.mp (mem_scored h)
  exact ⟨c, d, hc, hd, hid, horg, rfl, rfl, rfl⟩

theorem searchChunkCandidates_ranked [LinearOrder σ] {vectorDot : List (BitVec 8) → List (BitVec 8) → σ}
    {matchesMetadataFilter : Object → φ → Bool} {query : List F32} {modelId : String} {limit : Nat} {threshold : σ}
    {options : SearchOptions φ}
    (h : searchChunkCandidates env vectorDot matchesMetadataFilter orgId query modelId limit threshold options db =
      .ok candidates) : ∀ k ∈ candidates, RankedRow db orgId k := by
  unfold searchChunkCandidates at h
  split at h
  · cases h
  · cases h
    intro k hk
    obtain ⟨⟨c, d, s⟩, hrow, rfl⟩ := List.mem_map.mp hk
    exact rankedRow_of_scored (List.mem_insertionSort _ |>.mp (List.mem_of_mem_take hrow))

theorem searchChunkLexicalCandidates_ranked [LinearOrder σ] {bm25 : List Chunk → String → Chunk → Option σ}
    {matchesMetadataFilter : Object → φ → Bool} {query : String} {limit : Nat} {options : SearchOptions φ} :
    ∀ k ∈ searchChunkLexicalCandidates bm25 matchesMetadataFilter orgId query limit options db,
      RankedRow db orgId k := by
  intro k hk
  obtain ⟨⟨⟨c, d, s⟩, rank⟩, hrow, rfl⟩ := List.mem_map.mp hk
  have hranked := List.mem_of_mem_take (List.fst_mem_of_mem_zipIdx hrow)
  exact rankedRow_of_scored (List.mem_insertionSort _ |>.mp hranked)

/-- A row that a candidate names holds a ranked chunk, and what is ranked belongs to the organization. -/
structure StillRanked (env : Env) (orgId : String) (candidates : List (ChunkCandidate σ)) (db : Database) : Prop where
  row : ∀ c ∈ db.chunks, c.id ∈ candidates.map (·.chunkId) → c.stableId ∈ candidates.map (·.stableId)
  owner : ∀ c ∈ db.chunks, ∀ k ∈ candidates, c.stableId = k.stableId → c.documentId = k.documentId
  organization : ∀ d ∈ db.documents, ∀ k ∈ candidates, d.id = k.documentId → d.orgId = orgId
  stableDrawn : ∀ k ∈ candidates, Drawn env db k.stableId
  documentDrawn : ∀ k ∈ candidates, Drawn env db k.documentId

/-- What is ranked stays with its document, and the document with its organization. -/
structure StillOwned (env : Env) (orgId : String) (candidates : List (ChunkCandidate σ)) (db : Database) : Prop where
  owner : ∀ c ∈ db.chunks, ∀ k ∈ candidates, c.stableId = k.stableId → c.documentId = k.documentId
  organization : ∀ d ∈ db.documents, ∀ k ∈ candidates, d.id = k.documentId → d.orgId = orgId
  stableDrawn : ∀ k ∈ candidates, Drawn env db k.stableId
  documentDrawn : ∀ k ∈ candidates, Drawn env db k.documentId

theorem StillOwned.start {s : System} (hs : (machine env).Reachable s)
    (hranked : ∀ k ∈ candidates, RankedRow s.db orgId k) : StillOwned env orgId candidates s.db := by
  have hsound := soundChunks_of_reachable hs
  refine ⟨?_, ?_, ?_, ?_⟩
  · intro c hc k hk hsame
    obtain ⟨c', d, hc', _, hid, _, _, hstable, hdocument⟩ := hranked k hk
    obtain rfl := hsound.stable c hc c' hc' (hsame.trans hstable)
    exact hid.symm.trans hdocument.symm
  · intro d hd k hk hsame
    obtain ⟨_, d', _, hd', _, horg, _, _, hdocument⟩ := hranked k hk
    obtain rfl := Table.eq_of_key hd hd' (hsame.trans hdocument)
    exact horg
  · intro k hk
    obtain ⟨c, _, hc, _, _, _, _, hstable, _⟩ := hranked k hk
    exact hstable ▸ hsound.drawn c hc
  · intro k hk
    obtain ⟨_, d, _, hd, _, _, _, _, hdocument⟩ := hranked k hk
    exact hdocument ▸ (consistent_of_reachable hs).documentDrawn d hd

theorem StillRanked.owned (h : StillRanked env orgId candidates db) : StillOwned env orgId candidates db :=
  ⟨h.owner, h.organization, h.stableDrawn, h.documentDrawn⟩

theorem StillOwned.ranked (h : StillOwned env orgId candidates db)
    (hrow : ∀ c ∈ db.chunks, c.id ∈ candidates.map (·.chunkId) → c.stableId ∈ candidates.map (·.stableId)) :
    StillRanked env orgId candidates db :=
  ⟨hrow, h.owner, h.organization, h.stableDrawn, h.documentDrawn⟩

theorem StillRanked.start {s : System} (hs : (machine env).Reachable s)
    (hranked : ∀ k ∈ candidates, RankedRow s.db orgId k) : StillRanked env orgId candidates s.db := by
  apply (StillOwned.start hs hranked).ranked
  intro c hc hid
  obtain ⟨k, hk, hkid⟩ := List.mem_map.mp hid
  obtain ⟨c', d, hc', _, _, _, hchunk, hstable, _⟩ := hranked k hk
  obtain rfl := Table.eq_of_key hc hc' (hkid.symm.trans hchunk)
  exact List.mem_map.mpr ⟨k, hk, hstable⟩

/-- A stored stable identifier of a published row is one that its document had. -/
theorem existingChunks_lookup {documentId stableId : String} {place : Nat × String}
    (h : (existingChunks db documentId).lookup place = some stableId) :
    ∃ c ∈ db.chunks, c.documentId = documentId ∧ c.stableId = stableId := by
  obtain ⟨_, _, heq, _⟩ := List.lookup_eq_some_iff.mp h
  have hmem : (place, stableId) ∈ existingChunks db documentId := by
    rw [heq]
    simp
  obtain ⟨c, hc, hpair⟩ := List.mem_map.mp hmem
  obtain ⟨hrow, hdocument⟩ := List.mem_filter.mp hc
  exact ⟨c, hrow, by simpa using hdocument, congrArg Prod.snd hpair⟩

/-- A carried-over stable identifier stays with its document, and a new one was not ranked. -/
theorem StillOwned.step {s : System} {event : Time × Call} (h : StillOwned env orgId candidates s.db) :
    StillOwned env orgId candidates (event.2.run env event.1 s.db).2 := by
  have hstep := RowStep.run env event.1 event.2 s.db
  have hdrawn := event.2.idsDrawn_le env event.1 s.db
  refine ⟨?_, ?_, fun k hk => (h.stableDrawn k hk).mono hdrawn, fun k hk => (h.documentDrawn k hk).mono hdrawn⟩
  · intro c hc k hk hsame
    rcases hstep.chunk c hc with hold | ⟨p, hp, hrow⟩
    · exact h.owner c hold k hk hsame
    · rcases hrow.stable with hlookup | ⟨_, hnew⟩
      · obtain ⟨c', hc', hdocument, hstable⟩ := existingChunks_lookup hlookup
        rw [hrow.document, ← hdocument]
        exact h.owner c' hc' k hk (hstable.trans hsame)
      · exact absurd (hsame ▸ h.stableDrawn k hk) hnew
  · intro d hd k hk hsame
    rcases hstep.owners d hd with ⟨d', hd', hid, horg⟩ | hnew
    · exact horg.symm.trans (h.organization d' hd' k hk (hid.trans hsame))
    · exact absurd (hsame ▸ h.documentDrawn k hk) hnew

theorem StillOwned.run {s s' : System} (hs : (machine env).Reachable s)
    (hranked : ∀ k ∈ candidates, RankedRow s.db orgId k) (hrun : (machine env).Run s s') :
    StillOwned env orgId candidates s'.db := by
  induction hrun with
  | refl => exact .start hs hranked
  | step _ hstep ih =>
    obtain ⟨_, rfl⟩ := machine_step.mp hstep
    rw [System.after_db]
    exact ih.step

/-- A transaction that recycles no ranked row keeps what was ranked. -/
theorem StillRanked.step {s : System} {event : Time × Call} (h : StillRanked env orgId candidates s.db)
    (hkept : ¬ Recycles env candidates s event) :
    StillRanked env orgId candidates (event.2.run env event.1 s.db).2 := by
  apply h.owned.step.ranked
  intro c hc hid
  rcases (RowStep.run env event.1 event.2 s.db).chunk c hc with hold | ⟨p, hp, hrow⟩
  · exact h.row c hold hid
  · cases hresult : (event.2.run env event.1 s.db).1 with
    | error e =>
      have hcache (m : ClaimedMemoryJob) (result : String) : event.2 ≠ .cacheMemoryExtraction m result := by
        intro heq
        rw [heq] at hp
        cases hp
      rw [Call.run_error hcache hresult] at hc
      exact h.row c hc hid
    | ok answer =>
      by_contra hother
      refine hkept ⟨congrArg Except.isOk hresult, p, hp, _, hrow.place, hrow.id ▸ hid, ?_⟩
      intro stableId hlookup hranked
      rcases hrow.stable with hsame | ⟨hnone, _⟩
      · cases hsame.symm.trans hlookup
        exact hother hranked
      · cases hnone.symm.trans hlookup

theorem StillRanked.run {s s' : System} (hs : (machine env).Reachable s)
    (hranked : ∀ k ∈ candidates, RankedRow s.db orgId k)
    (hrun : ((machine env).restrict fun s event => ¬ Recycles env candidates s event).Run s s') :
    StillRanked env orgId candidates s'.db := by
  induction hrun with
  | refl => exact .start hs hranked
  | step _ hstep ih =>
    obtain ⟨hkept, hstep⟩ := Machine.restrict_step.mp hstep
    obtain ⟨_, rfl⟩ := machine_step.mp hstep
    rw [System.after_db]
    exact ih.step hkept

/-- The hit shows a stored chunk of a document of the organization, under a stable identifier that was ranked. -/
structure ShowsRanked (db : Database) (orgId : String) (candidates : List (ChunkCandidate σ)) (hit : SearchHit σ) :
    Prop where
  row : ∃ c d, c ∈ db.chunks ∧ d ∈ db.documents ∧ d.id = c.documentId ∧ d.orgId = orgId ∧ hit.id = c.stableId ∧
    hit.documentId = d.id ∧ hit.chunk = c.content ∧ hit.position = c.ordinal
  ranked : ∃ k ∈ candidates, k.stableId = hit.id

theorem chunkRow_eq_some {chunkId : Nat} {c : Chunk} {d : Document} :
    chunkRow db chunkId = some (c, d) ↔
      c ∈ db.chunks ∧ c.id = chunkId ∧ d ∈ db.documents ∧ d.id = c.documentId := by
  simp only [chunkRow, Option.bind_eq_some_iff, Option.map_eq_some_iff, Table.find_eq_some, Prod.mk.injEq]
  constructor
  · rintro ⟨c, ⟨hc, hid⟩, d, ⟨hd, hdocument⟩, rfl, rfl⟩
    exact ⟨hc, hid, hd, hdocument⟩
  · rintro ⟨hc, hid, hd, hdocument⟩
    exact ⟨c, ⟨hc, hid⟩, d, ⟨hd, hdocument⟩, rfl, rfl⟩

/-- The row that a candidate names is in a document that the options allow. -/
def AllowedRow (matchesMetadataFilter : Object → φ → Bool) (options : SearchOptions φ) (db : Database)
    (k : ChunkCandidate σ) : Prop :=
  ∃ c d, chunkRow db k.chunkId = some (c, d) ∧ options.Allows matchesMetadataFilter d

theorem allowedRow_of_scored {matchesMetadataFilter : Object → φ → Bool} {options : SearchOptions φ}
    {score : Chunk → Document → Option σ} {c : Chunk} {d : Document} {s : σ} {semanticScore : Option σ}
    {lexicalRank : Option Nat} (h : (c, d, s) ∈ scored score (doneChunks db orgId))
    (hscore : score c d ≠ none → options.Allows matchesMetadataFilter d) :
    AllowedRow matchesMetadataFilter options db (readCandidate semanticScore lexicalRank c d) := by
  obtain ⟨hc, hd, hid, _⟩ := mem_doneChunks.mp (mem_scored h)
  refine ⟨c, d, chunkRow_eq_some.mpr ⟨hc, rfl, hd, hid⟩, hscore ?_⟩
  obtain ⟨row, _, hrow⟩ := List.mem_filterMap.mp h
  obtain ⟨s', hs', heq⟩ := Option.map_eq_some_iff.mp hrow
  cases heq
  rw [hs']
  exact Option.some_ne_none s

theorem searchChunkCandidates_allowed [LinearOrder σ] {vectorDot : List (BitVec 8) → List (BitVec 8) → σ}
    {matchesMetadataFilter : Object → φ → Bool} {query : List F32} {modelId : String} {limit : Nat} {threshold : σ}
    {options : SearchOptions φ}
    (h : searchChunkCandidates env vectorDot matchesMetadataFilter orgId query modelId limit threshold options db =
      .ok candidates) : ∀ k ∈ candidates, AllowedRow matchesMetadataFilter options db k := by
  unfold searchChunkCandidates at h
  split at h
  · cases h
  · cases h
    intro k hk
    obtain ⟨⟨c, d, s⟩, hrow, rfl⟩ := List.mem_map.mp hk
    apply allowedRow_of_scored (List.mem_insertionSort _ |>.mp (List.mem_of_mem_take hrow))
    intro hscore
    obtain ⟨s', hs'⟩ := Option.ne_none_iff_exists'.mp hscore
    obtain ⟨e, he, _⟩ := Option.map_eq_some_iff.mp hs'
    exact (of_decide_eq_true (Option.filter_eq_some_iff.mp he).2).2.2.1

theorem searchChunkLexicalCandidates_allowed [LinearOrder σ] {bm25 : List Chunk → String → Chunk → Option σ}
    {matchesMetadataFilter : Object → φ → Bool} {query : String} {limit : Nat} {options : SearchOptions φ} :
    ∀ k ∈ searchChunkLexicalCandidates bm25 matchesMetadataFilter orgId query limit options db,
      AllowedRow matchesMetadataFilter options db k := by
  intro k hk
  obtain ⟨⟨⟨c, d, s⟩, rank⟩, hrow, rfl⟩ := List.mem_map.mp hk
  have hranked := List.mem_of_mem_take (List.fst_mem_of_mem_zipIdx hrow)
  apply allowedRow_of_scored (List.mem_insertionSort _ |>.mp hranked)
  intro hscore
  by_contra hnot
  exact hscore (if_neg hnot)

theorem mem_hydrateChunks [Zero σ] {fullDocument : Bool} {hit : SearchHit σ} :
    hit ∈ hydrateChunks candidates fullDocument db ↔ ∃ chunkId c d, chunkId ∈ candidates.map (·.chunkId) ∧
      chunkRow db chunkId = some (c, d) ∧ hit = { readHit (candidateScore candidates chunkId) c d with
        documentContent := if fullDocument then d.content else "" } := by
  simp only [hydrateChunks, List.mem_filterMap, List.mem_eraseDups, Option.map_eq_some_iff]
  constructor
  · rintro ⟨chunkId, hmem, ⟨c, d⟩, hrow, rfl⟩
    exact ⟨chunkId, c, d, hmem, hrow, rfl⟩
  · rintro ⟨chunkId, c, d, hmem, hrow, rfl⟩
    exact ⟨chunkId, hmem, (c, d), hrow, rfl⟩

theorem StillRanked.hydrated [Zero σ] {fullDocument : Bool} {hit : SearchHit σ}
    (h : StillRanked env orgId candidates db) (hhit : hit ∈ hydrateChunks candidates fullDocument db) :
    ShowsRanked db orgId candidates hit := by
  obtain ⟨chunkId, c, d, hmem, hrow, rfl⟩ := mem_hydrateChunks.mp hhit
  obtain ⟨hc, rfl, hd, hid⟩ := chunkRow_eq_some.mp hrow
  obtain ⟨k, hk, hstable⟩ := List.mem_map.mp (h.row c hc hmem)
  have horg := h.organization d hd k hk (hid.trans (h.owner c hc k hk hstable.symm))
  exact ⟨⟨c, d, hc, hd, hid, horg, rfl, rfl, rfl, rfl⟩, k, hk, hstable⟩

theorem mem_setDocumentStatus {d : Document} {id : String} {revision : Nat} {status : DocumentState}
    (hd : d ∈ db.documents) : ∃ d' ∈ (db.setDocumentStatus id revision status).documents, d'.id = d.id := by
  have hrow : _ ∈ (db.setDocumentStatus id revision status).documents.rows := List.mem_map.mpr ⟨d, hd, rfl⟩
  refine ⟨_, Table.mem_rows.mp hrow, ?_⟩
  split
  · rfl
  · rfl

/-- The document of a publication that commits is there, and every chunk of it has its row. -/
theorem Call.published_rows {call : Call} {p : ClaimedJob × List String} (hp : p ∈ call.published)
    (hok : (call.run env now db).1.isOk = true) :
    (∃ d ∈ (call.run env now db).2.documents, d.id = p.1.documentId) ∧
    ∀ place ∈ p.2.zipIdx, ∃ c ∈ (call.run env now db).2.chunks, (c.content, c.ordinal) = place ∧
      PublishedRow env db p.1.documentId p.2 c := by
  have heffect := call.effect env now db
  generalize call.run env now db = r at heffect hok ⊢
  cases heffect with
  | failed => cases hok
  | nothing _ _ hunpublished => cases hunpublished.symm.trans hp
  | @published _ job chunks _ _ _ _ hpublished _ hr =>
    cases hpublished.symm.trans hp
    refine ⟨?_, (publishJob_rows hr).2⟩
    have hpublishes := publishJob_ok hr
    obtain ⟨d, hd, hid, _⟩ := documentRevision_eq_some.mp hpublishes.current
    rw [hpublishes.document.1]
    obtain ⟨d', hd', hsame⟩ := mem_setDocumentStatus hd
    exact ⟨d', hd', hsame.trans hid⟩
  | _ => cases hp

/-- A row that is recycled is read as a hit that was not ranked. -/
theorem StillRanked.recycled [Zero σ] {fullDocument : Bool} {s : System} {event : Time × Call}
    (h : StillRanked env orgId candidates s.db) (hrecycles : Recycles env candidates s event) :
    ∃ hit ∈ hydrateChunks candidates fullDocument (event.2.run env event.1 s.db).2,
      ∀ k ∈ candidates, k.stableId ≠ hit.id := by
  obtain ⟨hok, p, hp, place, hplace, hrow, hother⟩ := hrecycles
  obtain ⟨⟨d, hd, hdocument⟩, hrows⟩ := Call.published_rows hp hok
  obtain ⟨c, hc, rfl, hpublished⟩ := hrows place hplace
  have hread := chunkRow_eq_some.mpr ⟨hc, rfl, hd, hdocument.trans hpublished.document.symm⟩
  refine ⟨_, mem_hydrateChunks.mpr ⟨c.id, c, d, hpublished.id ▸ hrow, hread, rfl⟩, ?_⟩
  intro k hk hsame
  rcases hpublished.stable with hlookup | ⟨_, hnew⟩
  · exact hother c.stableId hlookup (List.mem_map.mpr ⟨k, hk, hsame⟩)
  · have hsame : k.stableId = c.stableId := hsame
    exact hnew (hsame ▸ h.stableDrawn k hk)

end Hydration

end Storage
