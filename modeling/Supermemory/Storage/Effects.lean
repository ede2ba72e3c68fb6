-- SUMMARY: What each storage operation can do to the tables: one inversion lemma an operation.
import Supermemory.Storage.Connection
import Supermemory.Storage.MemoryJobs

/-!
# Effects

Each operation is inverted once: when it commits, which guards held and which
statements ran. Proofs about runs start from these lemmas and never unfold an
operation again.
-/

namespace Storage

variable {env : Env} {now : Time} {db db' : Database}

/-! ## Shared statements -/

theorem documentRevision_eq_some {id : String} {revision : Nat} :
    db.documentRevision id = some revision ↔
      ∃ d ∈ db.documents, d.id = id ∧ d.revision = revision := by
  simp [Database.documentRevision, Option.map_eq_some_iff, Table.find_eq_some, and_assoc]

/-- The row that `insertJob` inserts. -/
def queuedJob (env : Env) (now : Time) (db : Database) (documentId : String) (kind : JobKind)
    (revision : Nat) : Job :=
  { id := env.generateId db.idsDrawn
    documentId, kind, revision
    status := .queued
    attempts := 0
    availableAt := now
    lastError := none
    createdAt := now
    extractionResult := none
    lastErrorKind := none }

theorem insertJob_ok {documentId : String} {kind : JobKind} {revision : Nat}
    (h : db.insertJob env now documentId kind revision = .ok db') :
    (∀ j ∈ db.jobs, j.documentId = documentId → j.revision = revision → ¬ j.status.IsActive) ∧
    ∃ jobs, db.jobs.insert (queuedJob env now db documentId kind revision) = some jobs ∧
      db' = { db with jobs, idsDrawn := db.idsDrawn + 1 } := by
  unfold Database.insertJob at h
  simp only at h
  split at h
  · cases h
  · rename_i hnone
    split at h
    · cases h
    · rename_i jobs hins
      refine ⟨fun j hj hdoc hrev hactive => hnone ⟨j, hj, hdoc, hrev, hactive⟩, jobs, hins, ?_⟩
      cases h
      rfl

/-! ## Documents -/

theorem enqueueUnlessActive_ok {id : String} {enqueued : Bool}
    (h : enqueueUnlessActive env now db id = .ok (enqueued, db')) :
    (hasActiveDocumentJob db id ∧ db' = db) ∨
    (¬ hasActiveDocumentJob db id ∧ ∃ d ∈ db.documents, d.id = id ∧
      db.insertJob env now id .document d.revision = .ok db') := by
  unfold enqueueUnlessActive at h
  split at h
  · rename_i hactive
    cases h
    exact .inl ⟨hactive, rfl⟩
  · rename_i hactive
    split at h
    · cases h
    · rename_i revision hrev
      obtain ⟨d, hd, hid, rfl⟩ := documentRevision_eq_some.mp hrev
      split at h
      · cases h
      · rename_i hins
        cases h
        exact .inr ⟨hactive, d, hd, hid, hins⟩

/-- The document row after `updateFull`. -/
def rewritten (input : UpsertDocument) (hash : String) (metadata : Object) (status : DocumentState)
    (d : Document) : Document :=
  { d with
    content := input.content
    contentHash := hash
    customId := input.customId
    status
    containerTags := input.containerTags
    entityContext := input.entityContext
    metadata
    taskType := input.taskType
    filepath := input.filepath
    filterByMetadata := input.filterByMetadata
    dreaming := input.dreaming
    revision := d.revision + 1 }

theorem updateFull_ok {id : String} {input : UpsertDocument} {hash : String} {metadata : Object}
    {status : DocumentState} (h : updateFull db id input hash metadata status = .ok db') :
    db' = markMemoryJobsStale
      { db with
        documents := db.documents.update (fun d => d.id = id) (rewritten input hash metadata status) }
      id := by
  unfold updateFull at h
  split at h
  · cases h
    rfl
  · cases h

theorem mem_markMemoryJobsStale {id : String} {j' : Job} :
    j' ∈ (markMemoryJobsStale db id).jobs ↔ ∃ j ∈ db.jobs, j' =
      if j.documentId = id ∧ j.kind = .memory ∧ some j.revision ≠ db.documentRevision id ∧
          j.status.IsActive then
        { j with status := .failed, lastErrorKind := some "stale_revision", lastError := none }
      else j := by
  dsimp only [markMemoryJobsStale]
  exact Table.mem_update

/-- The columns of a job row that are written once. -/
def SameJob (j j' : Job) : Prop :=
  j'.id = j.id ∧ j'.documentId = j.documentId ∧ j'.kind = j.kind ∧ j'.revision = j.revision

/-- One document is rewritten under its next revision, and its active memory jobs of other
    revisions are failed. -/
structure Rewrites (id : String) (status : DocumentState) (db db' : Database) : Prop where
  document : ∀ d' ∈ db'.documents, ∃ d ∈ db.documents, d'.id = d.id ∧
    (d' = d ∧ d.id ≠ id ∨ d.id = id ∧ d'.revision = d.revision + 1 ∧ d'.status = status)
  documentKept : ∀ d ∈ db.documents, ∃ d' ∈ db'.documents, d'.id = d.id
  job : ∀ j' ∈ db'.jobs, ∃ j ∈ db.jobs, SameJob j j' ∧
    (j' = j ∨ j.documentId = id ∧ j.kind = .memory ∧ j.status.IsActive ∧ j'.status = .failed)
  stale : ∀ j' ∈ db'.jobs, j'.kind = .memory → j'.status.IsActive → ∀ d' ∈ db'.documents,
    d'.id = j'.documentId → d'.id = id → j'.revision = d'.revision
  jobKept : ∀ j ∈ db.jobs, ∃ j' ∈ db'.jobs, SameJob j j' ∧ (j.documentId ≠ id → j' = j)
  chunks : db'.chunks = db.chunks
  idsDrawn : db'.idsDrawn = db.idsDrawn

theorem updateFull_rewrites {id : String} {input : UpsertDocument} {hash : String}
    {metadata : Object} {status : DocumentState}
    (h : updateFull db id input hash metadata status = .ok db') : Rewrites id status db db' := by
  obtain rfl := updateFull_ok h
  constructor
  case document =>
    intro d' hd'
    have hmem : d' ∈ db.documents.update (fun d => d.id = id)
        (rewritten input hash metadata status) := hd'
    obtain ⟨d, hd, rfl⟩ := Table.mem_update.mp hmem
    refine ⟨d, hd, ?_⟩
    split
    · rename_i hid
      exact ⟨rfl, .inr ⟨hid, rfl, rfl⟩⟩
    · rename_i hid
      exact ⟨rfl, .inl ⟨rfl, hid⟩⟩
  case documentKept =>
    intro d hd
    have hmem : _ ∈ db.documents.update (fun d => d.id = id)
        (rewritten input hash metadata status) := Table.update_mem hd
    refine ⟨_, hmem, ?_⟩
    split <;> rfl
  case job =>
    intro j' hj'
    obtain ⟨j, hj, rfl⟩ := mem_markMemoryJobsStale.mp hj'
    refine ⟨j, hj, ?_⟩
    split
    · rename_i hstale
      exact ⟨⟨rfl, rfl, rfl, rfl⟩, .inr ⟨hstale.1, hstale.2.1, hstale.2.2.2, rfl⟩⟩
    · exact ⟨⟨rfl, rfl, rfl, rfl⟩, .inl rfl⟩
  case stale =>
    intro j' hj' hkind hactive d' hd' hown hid
    obtain ⟨j, hj, hj'⟩ := mem_markMemoryJobsStale.mp hj'
    split at hj'
    · subst hj'
      exact absurd hactive DocumentState.not_isActive_failed
    · rename_i hnot
      subst hj'
      by_contra hne
      refine hnot ⟨hown.symm.trans hid, hkind, fun hrev => hne ?_, hactive⟩
      obtain ⟨d₂, hd₂, hid₂, hrev₂⟩ := documentRevision_eq_some.mp hrev.symm
      rw [← hrev₂, Table.eq_of_key hd₂ hd' (hid₂.trans hid.symm)]
  case jobKept =>
    intro j hj
    refine ⟨_, mem_markMemoryJobsStale.mpr ⟨j, hj, rfl⟩, ?_⟩
    split
    · rename_i hstale
      exact ⟨⟨rfl, rfl, rfl, rfl⟩, fun hne => absurd hstale.1 hne⟩
    · exact ⟨⟨rfl, rfl, rfl, rfl⟩, fun _ => rfl⟩
  case chunks => rfl
  case idsDrawn => rfl

theorem requeue_ok {existing : Document} {input : UpsertDocument} {hash : String}
    {result : UpsertResult} (h : requeue env now db existing input hash = .ok (result, db')) :
    ∃ metadata dbu enqueued, updateFull db existing.id input hash metadata .queued = .ok dbu ∧
      enqueueUnlessActive env now dbu existing.id = .ok (enqueued, db') := by
  unfold requeue at h
  split at h
  · cases h
  · rename_i dbu hupdate
    split at h
    · cases h
    · rename_i enqueued dbe henqueue
      cases h
      exact ⟨_, dbu, enqueued, hupdate, henqueue⟩

/-- An existing document is left alone, gets new metadata, or is rewritten; it is rewritten only
    while no document job of its current revision is active. -/
theorem applyExisting_ok {existing : Document} {input : UpsertDocument} {hash : String}
    {result : UpsertResult} (h : applyExisting env now db existing input hash = .ok (result, db')) :
    db' = db ∨ (∃ metadata, db' = setMetadata db existing.id metadata) ∨
    (¬ hasActiveDocumentJob db existing.id ∧
      requeue env now db existing input hash = .ok (result, db')) := by
  unfold applyExisting at h
  simp only at h
  split at h
  · cases h
    exact .inl rfl
  · rename_i hactive
    split at h
    · exact .inr (.inr ⟨hactive, h⟩)
    · split at h
      · split at h
        · cases h
          exact .inl rfl
        · split at h
          · exact .inr (.inr ⟨hactive, h⟩)
          · cases h
            exact .inr (.inl ⟨_, rfl⟩)
      · exact .inr (.inr ⟨hactive, h⟩)

theorem insertNew_ok {orgId : String} {input : UpsertDocument} {hash : String}
    {result : UpsertResult} (h : insertNew env now db orgId input hash = .ok (result, db')) :
    ∃ document documents enqueued, document.id = env.generateId db.idsDrawn ∧
      document.status = .queued ∧ document.revision = 1 ∧
      db.documents.insert document = some documents ∧
      enqueueUnlessActive env now { db with documents, idsDrawn := db.idsDrawn + 1 } document.id =
        .ok (enqueued, db') := by
  unfold insertNew at h
  simp only at h
  split at h
  · split at h
    · cases h
    · rename_i documents hins
      split at h
      · cases h
      · rename_i enqueued dbe henqueue
        cases h
        exact ⟨_, documents, enqueued, rfl, rfl, rfl, hins, henqueue⟩
  · cases h

theorem findExisting_mem {orgId : String} {input : UpsertDocument} {hash : String} {d : Document}
    (h : findExisting db orgId input hash = some d) : d ∈ db.documents := by
  unfold findExisting at h
  split at h
  · exact List.mem_of_find?_eq_some h
  · exact List.mem_of_find?_eq_some h

theorem upsertDocumentFor_ok {orgId : String} {input : UpsertDocument} {result : UpsertResult}
    (h : upsertDocumentFor env now orgId input db = .ok (result, db')) :
    ∃ input hash, (∃ existing ∈ db.documents,
        applyExisting env now db existing input hash = .ok (result, db')) ∨
      insertNew env now db orgId input hash = .ok (result, db') := by
  unfold upsertDocumentFor at h
  simp only at h
  split at h
  · rename_i existing hfind
    exact ⟨_, _, .inl ⟨existing, findExisting_mem hfind, h⟩⟩
  · exact ⟨_, _, .inr h⟩

theorem deleteDocumentFor_cases (db : Database) (orgId identifier : String) :
    (deleteDocumentFor orgId identifier db).2 = db ∨
    ∃ id, (deleteDocumentFor orgId identifier db).2 = db.deleteDocument id := by
  unfold deleteDocumentFor
  split
  · exact .inl rfl
  · exact .inr ⟨_, rfl⟩

/-! ## Document jobs -/

/-- The claimed job is queued, of the kind asked for, and at its document's revision. -/
theorem nextJob_some {kind : JobKind} {j : Job} {d : Document}
    (h : nextJob db now kind = some (j, d)) :
    j ∈ db.jobs ∧ d ∈ db.documents ∧ d.id = j.documentId ∧ j.kind = kind ∧ j.status = .queued ∧
      j.revision = d.revision := by
  unfold nextJob at h
  split at h
  · cases h
  · rename_i job hmin
    obtain ⟨hj, hguard⟩ := List.mem_filter.mp (List.argmin_mem (Option.mem_def.mpr hmin))
    obtain ⟨document, hfind, heq⟩ := Option.map_eq_some_iff.mp h
    cases heq
    simp only [decide_eq_true_eq] at hguard
    obtain ⟨hkind, hstatus, hrev, _⟩ := hguard
    obtain ⟨hd, hid⟩ := Table.find_eq_some.mp hfind
    obtain ⟨d', hd', hid', hrev'⟩ := documentRevision_eq_some.mp hrev.symm
    obtain rfl := Table.eq_of_key hd hd' (hid.trans hid'.symm)
    exact ⟨hj, hd, hid, hkind, hstatus, hrev'.symm⟩

theorem claimJob_some {h : ClaimedJob} (hclaim : claimJob now db = (some h, db')) :
    ∃ j d, j ∈ db.jobs ∧ d ∈ db.documents ∧ d.id = j.documentId ∧ j.kind = .document ∧
      j.status = .queued ∧ j.revision = d.revision ∧
      h = ⟨j.id, d.id, d.content, j.revision⟩ ∧
      db' = (startJob db h.id h.revision).setDocumentStatus h.documentId h.revision .extracting := by
  unfold claimJob at hclaim
  split at hclaim
  · cases hclaim
  · rename_i j d hnext
    obtain ⟨hj, hd, hid, hkind, hstatus, hrev⟩ := nextJob_some hnext
    cases hclaim
    exact ⟨j, d, hj, hd, hid, hkind, hstatus, hrev, rfl, rfl⟩

theorem claimJob_none (hclaim : claimJob now db = (none, db')) : db' = db := by
  unfold claimJob at hclaim
  split at hclaim
  · cases hclaim
    rfl
  · cases hclaim

/-- Everything but the chunks of one document, their vectors and the identifiers drawn. -/
structure SameButChunks (documentId : String) (db db' : Database) : Prop where
  documents : db'.documents = db.documents
  jobs : db'.jobs = db.jobs
  memories : db'.memories = db.memories
  memorySources : db'.memorySources = db.memorySources
  memoryRelations : db'.memoryRelations = db.memoryRelations
  memoryEmbeddings : db'.memoryEmbeddings = db.memoryEmbeddings
  idsDrawn : db.idsDrawn ≤ db'.idsDrawn
  others : ∀ id, id ≠ documentId → chunkRows db' id = chunkRows db id

theorem SameButChunks.trans {id : String} {db₁ db₂ db₃ : Database} (h : SameButChunks id db₁ db₂)
    (h' : SameButChunks id db₂ db₃) : SameButChunks id db₁ db₃ where
  documents := h'.documents.trans h.documents
  jobs := h'.jobs.trans h.jobs
  memories := h'.memories.trans h.memories
  memorySources := h'.memorySources.trans h.memorySources
  memoryRelations := h'.memoryRelations.trans h.memoryRelations
  memoryEmbeddings := h'.memoryEmbeddings.trans h.memoryEmbeddings
  idsDrawn := h.idsDrawn.trans h'.idsDrawn
  others x hx := (h'.others x hx).trans (h.others x hx)

theorem deleteChunks_same (db : Database) (id : String) : SameButChunks id db (deleteChunks db id) := by
  refine ⟨rfl, rfl, rfl, rfl, rfl, rfl, le_refl _, fun x hx => ?_⟩
  simp only [chunkRows, deleteChunks, Table.delete, List.filter_filter]
  refine List.filter_congr fun c _ => ?_
  by_cases hc : c.documentId = x
  · simp [hc, hx]
  · simp [hc]

theorem chunkRows_deleteChunks (db : Database) (id : String) : chunkRows (deleteChunks db id) id = [] := by
  simp [chunkRows, deleteChunks, Table.delete]

theorem insertChunk_ok {documentId content stableId : String} {ordinal chunkId : Nat}
    (h : insertChunk db documentId ordinal content stableId = .ok (chunkId, db')) :
    SameButChunks documentId db db' ∧
      chunkRows db' documentId =
        chunkRows db documentId ++ [⟨chunkId, documentId, ordinal, content, stableId⟩] := by
  unfold insertChunk at h
  simp only at h
  split at h
  · cases h
  · split at h
    · cases h
    · rename_i chunks hins
      cases h
      have hrows := Table.insert_rows hins
      refine ⟨⟨rfl, rfl, rfl, rfl, rfl, rfl, le_refl _, fun x hx => ?_⟩, ?_⟩
      · simp [chunkRows, hrows, List.filter_append, Ne.symm hx]
      · simp [chunkRows, hrows, List.filter_append]

theorem insertChunkEmbedding_ok {chunkId dimensions : Nat} {modelId : String} {vector : List F32}
    (h : insertChunkEmbedding db chunkId modelId dimensions vector = .ok db') :
    ∃ chunkEmbeddings, db' = { db with chunkEmbeddings } := by
  unfold insertChunkEmbedding at h
  split at h
  · cases h
  · split at h
    · cases h
    · cases h
      exact ⟨_, rfl⟩

theorem insertEmbeddedChunk_ok {documentId stableId : String} {embedding : Option (String × Nat)}
    {ordinal : Nat} {chunk : EmbeddedChunk}
    (h : insertEmbeddedChunk documentId embedding ordinal chunk stableId db = .ok db') :
    SameButChunks documentId db db' ∧ ∃ chunkId, chunkRows db' documentId =
      chunkRows db documentId ++ [⟨chunkId, documentId, ordinal, chunk.content, stableId⟩] := by
  unfold insertEmbeddedChunk at h
  split at h
  · cases h
  · rename_i chunkId dbc hinsert
    obtain ⟨hsame, hrow⟩ := insertChunk_ok hinsert
    split at h
    · cases h
      exact ⟨hsame, chunkId, hrow⟩
    · obtain ⟨chunkEmbeddings, rfl⟩ := insertChunkEmbedding_ok h
      exact ⟨hsame.trans ⟨rfl, rfl, rfl, rfl, rfl, rfl, le_refl _, fun _ _ => rfl⟩, chunkId, hrow⟩

/-- One turn of the insertion loop: the stable identifier is the stored one, or a new one. -/
theorem insertChunks_cons {documentId : String} {embedding : Option (String × Nat)}
    {existing : List ((Nat × String) × String)} {ordinal : Nat} {chunk : EmbeddedChunk}
    {rest : List EmbeddedChunk}
    (h : insertChunks env documentId embedding existing ordinal (chunk :: rest) db = .ok db') :
    ∃ stableId idsDrawn dbc,
      (existing.lookup (ordinal, chunk.content) = some stableId ∧ idsDrawn = db.idsDrawn ∨
        existing.lookup (ordinal, chunk.content) = none ∧ stableId = env.generateId db.idsDrawn ∧
          idsDrawn = db.idsDrawn + 1) ∧
      insertEmbeddedChunk documentId embedding ordinal chunk stableId { db with idsDrawn } = .ok dbc ∧
      insertChunks env documentId embedding existing (ordinal + 1) rest dbc = .ok db' := by
  rw [insertChunks] at h
  split at h
  · cases h
  · rename_i dbc hinserted
    split at hinserted
    · rename_i hlookup
      exact ⟨_, db.idsDrawn, dbc, .inl ⟨hlookup, rfl⟩, hinserted, h⟩
    · rename_i hlookup
      exact ⟨_, db.idsDrawn + 1, dbc, .inr ⟨hlookup, rfl, rfl⟩, hinserted, h⟩

/-- The inserted rows carry the chunks in order, numbered from `ordinal` on, and the stable
    identifiers of the stored chunks that they repeat. -/
theorem insertChunks_ok {documentId : String} {embedding : Option (String × Nat)}
    {existing : List ((Nat × String) × String)} {ordinal : Nat} {chunks : List EmbeddedChunk}
    (h : insertChunks env documentId embedding existing ordinal chunks db = .ok db') :
    SameButChunks documentId db db' ∧
    ∃ rows, chunkRows db' documentId = chunkRows db documentId ++ rows ∧
      rows.map (·.content) = chunks.map (·.content) ∧
      rows.map (·.ordinal) = List.range' ordinal chunks.length ∧
      ∀ c ∈ rows, ∀ stored, existing.lookup (c.ordinal, c.content) = some stored →
        c.stableId = stored := by
  induction chunks generalizing ordinal db with
  | nil =>
    cases h
    exact ⟨⟨rfl, rfl, rfl, rfl, rfl, rfl, le_refl _, fun _ _ => rfl⟩, [], by simp⟩
  | cons chunk rest ih =>
    obtain ⟨stableId, idsDrawn, dbc, hchoice, hinsert, hloop⟩ := insertChunks_cons h
    have hdrawn : db.idsDrawn ≤ idsDrawn := by
      rcases hchoice with ⟨_, rfl⟩ | ⟨_, _, rfl⟩
      · exact le_refl _
      · exact Nat.le_succ _
    have hstable : ∀ stored, existing.lookup (ordinal, chunk.content) = some stored → stableId = stored := by
      intro stored hstored
      rcases hchoice with ⟨hlookup, _⟩ | ⟨hlookup, _⟩
      · exact Option.some_inj.mp (hlookup.symm.trans hstored)
      · cases hlookup.symm.trans hstored
    obtain ⟨hsame, chunkId, hrow⟩ := insertEmbeddedChunk_ok hinsert
    obtain ⟨hsame', rows, hrows, hcontent, hordinal, hstable'⟩ := ih hloop
    have hdraw : SameButChunks documentId db { db with idsDrawn } :=
      ⟨rfl, rfl, rfl, rfl, rfl, rfl, hdrawn, fun _ _ => rfl⟩
    have hrow' : chunkRows dbc documentId =
        chunkRows db documentId ++ [⟨chunkId, documentId, ordinal, chunk.content, stableId⟩] := hrow
    refine ⟨(hdraw.trans hsame).trans hsame',
      ⟨chunkId, documentId, ordinal, chunk.content, stableId⟩ :: rows, ?_, ?_, ?_, ?_⟩
    · rw [hrows, hrow', List.append_assoc, List.singleton_append]
    · simp [hcontent]
    · simp [hordinal, List.range'_succ]
    · exact List.forall_mem_cons.mpr ⟨hstable, hstable'⟩

/-- A publication that commits: the document is at the handle's revision, its chunk rows are
    those of the call, the row of the handle is done if it was claimed, and the document is done,
    or indexing with a queued memory job. -/
structure Publishes (env : Env) (now : Time) (job : ClaimedJob) (chunks : List String)
    (schedule : Bool) (db db' : Database) : Prop where
  current : db.documentRevision job.documentId = some job.revision
  commit : ∃ dbc, SameButChunks job.documentId db dbc ∧
    (chunkRows dbc job.documentId).map (·.content) = chunks ∧
    (chunkRows dbc job.documentId).map (·.ordinal) = List.range chunks.length ∧
    (∀ c ∈ chunkRows dbc job.documentId, ∀ stored,
      (existingChunks db job.documentId).lookup (c.ordinal, c.content) = some stored →
        c.stableId = stored) ∧
    if schedule then
      ∃ dbj, (finishJob dbc job.id job.revision).insertJob env now job.documentId .memory job.revision =
          .ok dbj ∧ db' = dbj.setDocumentStatus job.documentId job.revision .indexing
    else
      db' = (finishJob dbc job.id job.revision).setDocumentStatus job.documentId job.revision .done

/-- A publication that commits replaces the chunks, and what follows is decided by whether it schedules an
    extraction. -/
theorem publishJob_inserts {job : ClaimedJob} {chunks : List EmbeddedChunk}
    {embedding : Option (String × Nat)} {schedule : Bool}
    (h : publishJob env now job chunks embedding schedule db = .ok db') :
    db.documentRevision job.documentId = some job.revision ∧
    ∃ dbc, insertChunks env job.documentId embedding (existingChunks db job.documentId) 0 chunks
        (deleteChunks db job.documentId) = .ok dbc ∧
      if schedule then
        ∃ dbj, (finishJob dbc job.id job.revision).insertJob env now job.documentId .memory job.revision =
            .ok dbj ∧ db' = dbj.setDocumentStatus job.documentId job.revision .indexing
      else
        db' = (finishJob dbc job.id job.revision).setDocumentStatus job.documentId job.revision .done := by
  unfold publishJob at h
  simp only at h
  split at h
  · cases h
  · rename_i hcurrent
    split at h
    · cases h
    · rename_i dbc hchunks
      refine ⟨not_not.mp hcurrent, dbc, hchunks, ?_⟩
      split at h
      · rename_i hschedule
        rw [if_pos hschedule]
        split at h
        · cases h
        · rename_i dbj hinsert
          cases h
          exact ⟨dbj, hinsert, rfl⟩
      · rename_i hschedule
        rw [if_neg hschedule]
        cases h
        rfl

theorem publishJob_ok {job : ClaimedJob} {chunks : List EmbeddedChunk}
    {embedding : Option (String × Nat)} {schedule : Bool}
    (h : publishJob env now job chunks embedding schedule db = .ok db') :
    Publishes env now job (chunks.map (·.content)) schedule db db' := by
  obtain ⟨hcurrent, dbc, hchunks, hfinish⟩ := publishJob_inserts h
  obtain ⟨hsame, rows, hrows, hcontent, hordinal, hstable⟩ := insertChunks_ok hchunks
  rw [chunkRows_deleteChunks, List.nil_append] at hrows
  refine ⟨hcurrent, dbc, (deleteChunks_same db _).trans hsame, hrows ▸ hcontent, ?_, hrows ▸ hstable, hfinish⟩
  rw [hrows, hordinal, List.length_map, List.range_eq_range']

theorem completeJob_ok {job : ClaimedJob} {chunks : List String}
    (h : completeJob env now job chunks db = .ok db') :
    Publishes env now job chunks false db db' := by
  have := publishJob_ok h
  simpa [Function.comp_def] using this

/-- An embedded publication that commits was given valid vectors. -/
theorem completeEmbeddedJob_publishes {job : ClaimedJob} {chunks : List EmbeddedChunk} {modelId : String}
    {dimensions : Nat} (h : completeEmbeddedJob env now job chunks modelId dimensions db = .ok db') :
    ¬ dimensions = 0 ∧ validateChunks env dimensions chunks = .ok () ∧
      publishJob env now job chunks (some (modelId, dimensions)) false db = .ok db' := by
  unfold completeEmbeddedJob at h
  split at h
  · cases h
  · rename_i hdimensions
    split at h
    · cases h
    · rename_i hvalid
      exact ⟨hdimensions, hvalid, h⟩

theorem completeEmbeddedJob_ok {job : ClaimedJob} {chunks : List EmbeddedChunk} {modelId : String}
    {dimensions : Nat} (h : completeEmbeddedJob env now job chunks modelId dimensions db = .ok db') :
    Publishes env now job (chunks.map (·.content)) false db db' :=
  publishJob_ok (completeEmbeddedJob_publishes h).2.2

theorem completeEmbeddedJobWithMemoryExtraction_publishes {job : ClaimedJob} {chunks : List EmbeddedChunk}
    {modelId : String} {dimensions : Nat}
    (h : completeEmbeddedJobWithMemoryExtraction env now job chunks modelId dimensions db = .ok db') :
    ¬ dimensions ≠ 768 ∧ validateChunks env dimensions chunks = .ok () ∧
      publishJob env now job chunks (some (modelId, dimensions)) true db = .ok db' := by
  unfold completeEmbeddedJobWithMemoryExtraction at h
  split at h
  · cases h
  · rename_i hdimensions
    split at h
    · cases h
    · rename_i hvalid
      exact ⟨hdimensions, hvalid, h⟩

theorem completeEmbeddedJobWithMemoryExtraction_ok {job : ClaimedJob} {chunks : List EmbeddedChunk}
    {modelId : String} {dimensions : Nat}
    (h : completeEmbeddedJobWithMemoryExtraction env now job chunks modelId dimensions db = .ok db') :
    Publishes env now job (chunks.map (·.content)) true db db' :=
  publishJob_ok (completeEmbeddedJobWithMemoryExtraction_publishes h).2.2

/-- What a publication leaves in the document and in the memory tables. -/
theorem Publishes.document {k : ClaimedJob} {chunks : List String} {schedule : Bool}
    (hp : Publishes env now k chunks schedule db db') :
    db'.documents = (db.setDocumentStatus k.documentId k.revision
      (if schedule then .indexing else .done)).documents ∧
    db'.memories = db.memories ∧ db'.memorySources = db.memorySources ∧
    db'.memoryRelations = db.memoryRelations ∧ db'.memoryEmbeddings = db.memoryEmbeddings := by
  obtain ⟨_, dbc, hsame, -, -, -, hcommit⟩ := hp
  cases schedule with
  | false =>
    obtain rfl : db' = _ := hcommit
    simp [finishJob, Database.setDocumentStatus, hsame.documents, hsame.memories, hsame.memorySources,
      hsame.memoryRelations, hsame.memoryEmbeddings]
  | true =>
    obtain ⟨dbj, hinsert, rfl⟩ := hcommit
    obtain ⟨_, _, _, rfl⟩ := insertJob_ok hinsert
    simp [finishJob, Database.setDocumentStatus, hsame.documents, hsame.memories, hsame.memorySources,
      hsame.memoryRelations, hsame.memoryEmbeddings]

theorem countDocument_eq_one {id : String} {revision : Nat} :
    db.countDocument id revision = 1 ↔ ∃ d ∈ db.documents, d.id = id ∧ d.revision = revision := by
  unfold Database.countDocument
  rw [Table.count_eq_one (k := id) fun _ h => h.1]
  constructor
  · rintro ⟨d, hd, hguard⟩
    exact ⟨d, Table.find_mem hd, hguard⟩
  · rintro ⟨d, hd, hid, hrev⟩
    exact ⟨d, Table.find_eq_some.mpr ⟨hd, hid⟩, hid, hrev⟩

/-- Setting a status leaves every document where it is. -/
theorem setDocumentStatus_keeps {id : String} {revision : Nat} {status : DocumentState} {d : Document}
    (hd : d ∈ db.documents) : ∃ d' ∈ (db.setDocumentStatus id revision status).documents,
      d'.id = d.id ∧ d'.orgId = d.orgId ∧ d'.revision = d.revision := by
  dsimp only [Database.setDocumentStatus]
  refine ⟨_, Table.update_mem hd, ?_⟩
  split <;> exact ⟨rfl, rfl, rfl⟩

/-- A guard that fixes the identifier of a job counts one row when some row meets it. -/
theorem countJobs_eq_one {id : String} {p : Job → Prop} [DecidablePred p] (hp : ∀ j, p j → j.id = id) :
    db.jobs.count p = 1 ↔ ∃ j ∈ db.jobs, p j := by
  rw [Table.count_eq_one hp]
  constructor
  · rintro ⟨j, hj, hguard⟩
    exact ⟨j, Table.find_mem hj, hguard⟩
  · rintro ⟨j, hj, hguard⟩
    exact ⟨j, Table.find_eq_some.mpr ⟨hj, hp j hguard⟩, hguard⟩

/-- The job rows after a stage change. -/
def advanceJob (db : Database) (id : String) (revision : Nat) (expected stage : DocumentState) :
    Database :=
  { db with
    jobs := db.jobs.update (fun j => j.id = id ∧ j.revision = revision ∧ j.status = expected)
      (fun j => { j with status := stage }) }

theorem markJobStage_ok {job : ClaimedJob} {stage : DocumentState}
    (h : markJobStage job stage db = .ok db') :
    ∃ expected, expectedStage stage = some expected ∧
      (∃ j ∈ db.jobs, j.id = job.id ∧ j.revision = job.revision ∧ j.status = expected) ∧
      (∃ d ∈ db.documents, d.id = job.documentId ∧ d.revision = job.revision) ∧
      db' = (advanceJob db job.id job.revision expected stage).setDocumentStatus job.documentId
        job.revision stage := by
  unfold markJobStage at h
  split at h
  · cases h
  · rename_i expected hexpected
    simp only at h
    split at h
    · cases h
    · rename_i hcounts
      simp only [ne_eq, not_or, not_not] at hcounts
      cases h
      exact ⟨expected, hexpected, (countJobs_eq_one fun _ h => h.1).mp hcounts.1,
        countDocument_eq_one.mp hcounts.2, rfl⟩

/-- A stage and the one before it are both claimed statuses. -/
theorem expectedStage_claimed {stage expected : DocumentState} (h : expectedStage stage = some expected) :
    stage.IsClaimed ∧ expected.IsClaimed := by
  cases stage <;> simp_all [expectedStage, DocumentState.IsClaimed]

theorem deleteEmptyDocument_cases (job : ClaimedJob) (db : Database) :
    deleteEmptyDocument job db = db ∨ deleteEmptyDocument job db = db.deleteDocument job.documentId := by
  unfold deleteEmptyDocument
  split
  · exact .inl rfl
  · split
    · exact .inr rfl
    · exact .inl rfl

/-! ## Memory jobs -/

theorem claimMemoryJob_some {m : ClaimedMemoryJob}
    (hclaim : claimMemoryJob now db = .ok (some m, db')) :
    ∃ j d, j ∈ db.jobs ∧ d ∈ db.documents ∧ d.id = j.documentId ∧ j.kind = .memory ∧
      j.status = .queued ∧ j.revision = d.revision ∧ m.id = j.id ∧ m.documentId = d.id ∧
      m.revision = j.revision ∧ db' = startJob db m.id m.revision := by
  unfold claimMemoryJob at hclaim
  split at hclaim
  · cases hclaim
  · rename_i j d hnext
    obtain ⟨hj, hd, hid, hkind, hstatus, hrev⟩ := nextJob_some hnext
    simp only at hclaim
    split at hclaim
    · cases hclaim
    · cases hclaim
      exact ⟨j, d, hj, hd, hid, hkind, hstatus, hrev, rfl, rfl, rfl, rfl⟩

theorem claimMemoryJob_none (hclaim : claimMemoryJob now db = .ok (none, db')) : db' = db := by
  unfold claimMemoryJob at hclaim
  split at hclaim
  · cases hclaim
    rfl
  · simp only at hclaim
    split at hclaim
    · cases hclaim
    · cases hclaim

/-- The row that a memory handle may write to: extracting, at its document's revision. -/
def Cacheable (db : Database) (m : ClaimedMemoryJob) (j : Job) : Prop :=
  j.id = m.id ∧ j.revision = m.revision ∧ j.status = .extracting ∧
    db.documentRevision j.documentId = some j.revision

instance (db : Database) (m : ClaimedMemoryJob) : DecidablePred (Cacheable db m) :=
  fun _ => inferInstanceAs (Decidable (_ ∧ _))

theorem cacheMemoryExtraction_cases (m : ClaimedMemoryJob) (result : String) (db : Database) :
    ((∃ j ∈ db.jobs, Cacheable db m j) ∧
      cacheMemoryExtraction m result db = (.ok (), { db with
        jobs := db.jobs.update (Cacheable db m) (fun j => { j with extractionResult := some result }) })) ∨
    ((∀ j ∈ db.jobs, ¬ Cacheable db m j) ∧
      cacheMemoryExtraction m result db = (.error (.staleRevision m.documentId m.revision none),
        markMemoryJobStale db m.id m.revision)) := by
  by_cases hrow : ∃ j ∈ db.jobs, Cacheable db m j
  · refine .inl ⟨hrow, ?_⟩
    unfold cacheMemoryExtraction
    exact if_pos ((countJobs_eq_one fun _ h => h.1).mpr hrow)
  · refine .inr ⟨fun j hj hc => hrow ⟨j, hj, hc⟩, ?_⟩
    unfold cacheMemoryExtraction
    exact if_neg fun hcount => hrow ((countJobs_eq_one fun _ h => h.1).mp hcount)

/-- Completion fails the row when the revision of the handle is gone, whatever the status of the
    row. Otherwise it needs an extracting row. -/
theorem completeMemoryJob_ok {m : ClaimedMemoryJob} (h : completeMemoryJob m db = .ok db') :
    (db.documentRevision m.documentId ≠ some m.revision ∧
      db' = { db with
        jobs := db.jobs.update (fun j => j.id = m.id ∧ j.revision = m.revision)
          (fun j => { j with
            status := .failed, lastErrorKind := some "stale_revision", lastError := none }) }) ∨
    (db.documentRevision m.documentId = some m.revision ∧
      (∃ j ∈ db.jobs, j.id = m.id ∧ j.revision = m.revision ∧ j.status = .extracting) ∧
      db' = (finishMemoryJob db m.id m.revision).setDocumentStatus m.documentId m.revision .done) := by
  unfold completeMemoryJob at h
  simp only at h
  split at h
  · rename_i hstale
    cases h
    exact .inl ⟨hstale, rfl⟩
  · rename_i hcurrent
    split at h
    · cases h
    · rename_i hcounts
      simp only [ne_eq, not_or, not_not] at hcounts
      cases h
      exact .inr ⟨not_not.mp hcurrent, (countJobs_eq_one fun _ h => h.1).mp hcounts.1, rfl⟩

/-- The job rows after a retry. -/
def retriedJob (db : Database) (m : ClaimedMemoryJob) (status : DocumentState)
    (errorKind error : String) (availableAt : Time) : Database :=
  { db with
    jobs := db.jobs.update
      (fun j => j.id = m.id ∧ j.revision = m.revision ∧ j.status = .extracting)
      (fun j => { j with
        status, lastErrorKind := some errorKind, lastError := some error, availableAt }) }

theorem retryMemoryJob_ok {m : ClaimedMemoryJob} {errorKind error : String} {retryDelay : Option Nat}
    (h : retryMemoryJob now m errorKind error retryDelay db = .ok db') :
    (db.documentRevision m.documentId ≠ some m.revision ∧
      db' = markMemoryJobStale db m.id m.revision) ∨
    (db.documentRevision m.documentId = some m.revision ∧
      (∃ j ∈ db.jobs, j.id = m.id ∧ j.revision = m.revision ∧ j.status = .extracting) ∧
      ∃ availableAt, m.attempts < maxAttempts ∧ db' = retriedJob db m .queued errorKind error availableAt ∨
        db' = (retriedJob db m .failed errorKind error availableAt).setDocumentStatus m.documentId
          m.revision .failed) := by
  unfold retryMemoryJob at h
  split at h
  · rename_i hstale
    cases h
    exact .inl ⟨hstale, rfl⟩
  · rename_i hcurrent
    simp only at h
    split at h
    · cases h
    · rename_i hcount
      split at h
      · cases h
      · refine .inr ⟨not_not.mp hcurrent, (countJobs_eq_one fun _ h => h.1).mp (not_not.mp hcount), ?_⟩
        split at h
        · cases h
          exact ⟨_, .inr rfl⟩
        · rename_i hgoes
          cases h
          exact ⟨_, .inl ⟨not_le.mp fun hlast => hgoes (.inr hlast), rfl⟩⟩

/-! ## Memories -/

/-- Only the memory tables change, and identifiers are drawn. -/
structure MemoriesOnly (db db' : Database) : Prop where
  documents : db'.documents = db.documents
  jobs : db'.jobs = db.jobs
  chunks : db'.chunks = db.chunks
  chunkEmbeddings : db'.chunkEmbeddings = db.chunkEmbeddings
  idsDrawn : db.idsDrawn ≤ db'.idsDrawn

theorem MemoriesOnly.refl (db : Database) : MemoriesOnly db db := ⟨rfl, rfl, rfl, rfl, le_refl _⟩

theorem MemoriesOnly.trans {db₁ db₂ db₃ : Database} (h : MemoriesOnly db₁ db₂)
    (h' : MemoriesOnly db₂ db₃) : MemoriesOnly db₁ db₃ :=
  ⟨h'.documents.trans h.documents, h'.jobs.trans h.jobs, h'.chunks.trans h.chunks,
    h'.chunkEmbeddings.trans h.chunkEmbeddings, h.idsDrawn.trans h'.idsDrawn⟩

theorem linkParent_memoriesOnly (now : Time) (childId : String) (db : Database) (parent : ResolvedParent) :
    MemoriesOnly db (linkParent now childId db parent) := by
  have hadd : MemoriesOnly db (addRelation db parent.id childId parent.relation) := by
    unfold addRelation
    split
    · exact ⟨rfl, rfl, rfl, rfl, le_refl _⟩
    · exact .refl db
  unfold linkParent
  simp only
  split
  · exact hadd.trans ⟨rfl, rfl, rfl, rfl, le_refl _⟩
  · exact hadd

theorem linkParents_memoriesOnly (now : Time) (childId : String) (db : Database)
    (parents : List ResolvedParent) : MemoriesOnly db (parents.foldl (linkParent now childId) db) := by
  induction parents generalizing db with
  | nil => exact .refl db
  | cons parent rest ih => exact (linkParent_memoriesOnly now childId db parent).trans (ih _)

theorem linkParents_memorySources {now : Time} {childId : String} {parents : List ResolvedParent} :
    (parents.foldl (linkParent now childId) db).memorySources = db.memorySources := by
  induction parents generalizing db with
  | nil => rfl
  | cons parent rest ih =>
    rw [List.foldl_cons, ih]
    unfold linkParent addRelation
    simp only
    split <;> split <;> rfl

theorem insertMemoryEmbedding_ok {memoryId modelId : String} {dimensions : Nat} {vector : List F32}
    (h : insertMemoryEmbedding db memoryId modelId dimensions vector = .ok db') :
    ∃ memoryEmbeddings, db' = { db with memoryEmbeddings } ∧ db.memoryEmbeddings.insert
      { memoryId, modelId, dimensions, vector := vectorBytes vector, active := true } =
        some memoryEmbeddings := by
  unfold insertMemoryEmbedding at h
  split at h
  · cases h
  · split at h
    · cases h
    · rename_i hins
      cases h
      exact ⟨_, rfl, hins⟩

/-- The reconciliation state after a proposal that matched a memory. -/
def matched (batch : Batch) (proposal : MemoryProposal) (id : String) (s : Reconciliation) :
    Reconciliation :=
  { s with
    db := addSource s.db id batch.documentId
    temporaryIds := (proposal.temporaryId, id) :: s.temporaryIds
    recordIds := s.recordIds ++ [id] }

/-- What a proposal that matched nothing does: it inserts a memory, relates it to its parents,
    and inserts its vector. -/
structure Creates (env : Env) (now : Time) (batch : Batch) (proposal : MemoryProposal)
    (s s' : Reconciliation) (parents : List ResolvedParent) (id : String) : Prop where
  unmatched : s.exactMemories.lookup (normalizedMemory env proposal.content) = none
  resolved : parents =
    resolveMemoryParents s.db batch.orgId batch.containerTag proposal.parents s.temporaryIds
  drawn : id = "mem_" ++ env.generateId s.db.idsDrawn
  database : ∃ memories memorySources memoryEmbeddings,
    s.db.memories.insert (newMemory env now batch proposal parents id) = some memories ∧
    (parents.foldl (linkParent now id)
        { s.db with memories, memorySources, idsDrawn := s.db.idsDrawn + 1 }).memoryEmbeddings.insert
      { memoryId := id, modelId := batch.modelId, dimensions := batch.dimensions,
        vector := vectorBytes proposal.vector, active := true } = some memoryEmbeddings ∧
    s'.db = { parents.foldl (linkParent now id)
      { s.db with memories, memorySources, idsDrawn := s.db.idsDrawn + 1 } with memoryEmbeddings }
  temporaryIds : s'.temporaryIds = (proposal.temporaryId, id) :: s.temporaryIds
  exactMemories : s'.exactMemories = (normalizedMemory env proposal.content, id) :: s.exactMemories
  recordIds : s'.recordIds = s.recordIds ++ [id]
  sources : ∀ r, r ∈ s'.db.memorySources ↔ r ∈ s.db.memorySources ∨ r = ⟨id, batch.documentId⟩

theorem reconcileProposal_ok {batch : Batch} {proposal : MemoryProposal} {s s' : Reconciliation}
    (h : reconcileProposal env now batch s proposal = .ok s') :
    (∃ id, s.exactMemories.lookup (normalizedMemory env proposal.content) = some id ∧
      s' = matched batch proposal id s) ∨
    ∃ parents id, Creates env now batch proposal s s' parents id := by
  unfold reconcileProposal at h
  simp only at h
  split at h
  · rename_i id hlookup
    cases h
    exact .inl ⟨id, hlookup, rfl⟩
  · rename_i hlookup
    split at h
    · rename_i memories memorySources hmemory hsource
      split at h
      · cases h
      · rename_i dbe hembed
        obtain ⟨memoryEmbeddings, rfl, hins⟩ := insertMemoryEmbedding_ok hembed
        cases h
        refine .inr ⟨_, _, hlookup, rfl, rfl,
          ⟨memories, memorySources, memoryEmbeddings, hmemory, hins, rfl⟩, rfl, rfl, rfl, fun r => ?_⟩
        simp only [linkParents_memorySources]
        exact Table.mem_insert hsource
    · cases h

theorem addSource_memoriesOnly (db : Database) (memoryId documentId : String) :
    MemoriesOnly db (addSource db memoryId documentId) := ⟨rfl, rfl, rfl, rfl, le_refl _⟩

theorem reconcileProposal_memoriesOnly {batch : Batch} {proposal : MemoryProposal}
    {s s' : Reconciliation} (h : reconcileProposal env now batch s proposal = .ok s') :
    MemoriesOnly s.db s'.db := by
  rcases reconcileProposal_ok h with ⟨id, _, rfl⟩ | ⟨parents, id, hcreates⟩
  · exact addSource_memoriesOnly _ _ _
  · obtain ⟨memories, memorySources, memoryEmbeddings, _, _, hdb⟩ := hcreates.database
    have hinsert : MemoriesOnly s.db
        { s.db with memories, memorySources, idsDrawn := s.db.idsDrawn + 1 } :=
      ⟨rfl, rfl, rfl, rfl, Nat.le_succ _⟩
    rw [hdb]
    exact (hinsert.trans (linkParents_memoriesOnly now id _ parents)).trans
      ⟨rfl, rfl, rfl, rfl, le_refl _⟩

theorem reconcileProposals_memoriesOnly {batch : Batch} {proposals : List MemoryProposal}
    {s s' : Reconciliation} (h : reconcileProposals env now batch proposals s = .ok s') :
    MemoriesOnly s.db s'.db := by
  induction proposals generalizing s with
  | nil =>
    cases h
    exact .refl _
  | cons proposal rest ih =>
    rw [reconcileProposals] at h
    split at h
    · cases h
    · rename_i t hone
      exact (reconcileProposal_memoriesOnly hone).trans (ih h)

/-- The reconciliation state before the first proposal. -/
def reconciliationStart (env : Env) (batch : Batch) (db : Database) : Reconciliation :=
  { db
    temporaryIds := []
    exactMemories := activeMemoryIdsByContent env db batch.orgId batch.containerTag
    recordIds := [] }

theorem reconcileMemoriesFor_ok {batch : Batch} {expectedRevision : Option Nat}
    {completionJobId : Option String} {proposals : List MemoryProposal} {records : List MemoryRecord}
    (h : reconcileMemoriesFor env now batch expectedRevision completionJobId proposals db =
      .ok (records, db')) :
    ∃ source ∈ db.documents, source.id = batch.documentId ∧ source.orgId = batch.orgId ∧
      ∃ s, reconcileProposals env now batch proposals (reconciliationStart env batch db) = .ok s ∧
        readRecords s.db s.recordIds = .ok records ∧
        ((completionJobId = none ∧ db' = s.db) ∨ ∃ jobId, completionJobId = some jobId ∧
          finishReconciliation s.db jobId batch.documentId source.revision = .ok db') := by
  unfold reconcileMemoriesFor at h
  split at h
  · cases h
  · split at h
    · cases h
    · rename_i source hfind
      obtain ⟨hsource, horg⟩ := Option.filter_eq_some_iff.mp hfind
      obtain ⟨hmem, hid⟩ := Table.find_eq_some.mp hsource
      split at h
      · cases h
      · simp only at h
        split at h
        · cases h
        · rename_i s hloop
          split at h
          · cases h
          · rename_i records' hrecords
            refine ⟨source, hmem, hid, by simpa using horg, s, hloop, ?_⟩
            split at h
            · cases h
              exact ⟨hrecords, .inl ⟨rfl, rfl⟩⟩
            · rename_i jobId
              split at h
              · cases h
              · rename_i dbf hfinish
                cases h
                exact ⟨hrecords, .inr ⟨jobId, rfl, hfinish⟩⟩

/-- The job rows after a reconciliation completed its job. -/
def finishedReconciliation (db : Database) (jobId documentId : String) (revision : Nat) : Database :=
  { db with
    jobs := db.jobs.update (IsExtracting jobId documentId revision) (fun j => { j with
      status := .done, extractionResult := none, lastErrorKind := none, lastError := none }) }

theorem finishReconciliation_ok {jobId documentId : String} {revision : Nat}
    (h : finishReconciliation db jobId documentId revision = .ok db') :
    (∃ j ∈ db.jobs, IsExtracting jobId documentId revision j) ∧
    db' = (finishedReconciliation db jobId documentId revision).setDocumentStatus documentId revision
      .done := by
  unfold finishReconciliation at h
  simp only at h
  split at h
  · cases h
  · rename_i hcounts
    simp only [ne_eq, not_or, not_not] at hcounts
    cases h
    exact ⟨(countJobs_eq_one fun _ h => h.1).mp hcounts.1, rfl⟩

/-- The row of the job is done then. -/
theorem finishReconciliation_done {jobId documentId : String} {revision : Nat}
    (h : finishReconciliation db jobId documentId revision = .ok db') :
    ∀ j ∈ db'.jobs, j.id = jobId → j.status = .done ∧ ∃ i ∈ db.jobs, i.id = jobId ∧ i.kind = j.kind := by
  obtain ⟨⟨i, hi, hiid, hguard⟩, rfl⟩ := finishReconciliation_ok h
  intro j hj hid
  dsimp only [finishedReconciliation, Database.setDocumentStatus] at hj
  obtain ⟨r, hr, hrid, rfl⟩ := Table.of_mem_update hj
  obtain rfl := Table.eq_of_key hr hi (hrid.trans (hid.trans hiid.symm))
  rw [if_pos ⟨hiid, hguard⟩]
  exact ⟨rfl, r, hr, hiid, rfl⟩

theorem forgetMemoryFor_ok {orgId : String} {id content : Option String} {containerTag : String}
    {reason : Option String} {memoryId : String}
    (h : forgetMemoryFor env now orgId id content containerTag reason db = .ok (memoryId, db')) :
    ∃ m ∈ db.memories, m.id = memoryId ∧ m.isForgotten = false ∧ db' = { db with
      memories := db.memories.update (fun m => m.id = memoryId) (fun m =>
        { m with
          isForgotten := true
          isLatest := false
          isStatic := false
          forgetAfter := some (env.timestamp now)
          forgetReason := some (reason.getD "user_requested")
          updatedAt := now })
      memoryEmbeddings := db.memoryEmbeddings.update (fun e => e.memoryId = memoryId)
        (fun e => { e with active := false }) } := by
  unfold forgetMemoryFor at h
  split at h
  · cases h
  · rename_i m hfind
    have hmem : m ∈ db.memories.rows.filter fun m =>
        m.orgId = orgId ∧ m.containerTag = containerTag ∧ ¬ m.isForgotten ∧ Unexpired env now m := by
      unfold findForgettable at hfind
      simp only at hfind
      split at hfind
      · exact List.mem_of_find?_eq_some hfind
      · exact List.mem_of_find?_eq_some hfind
      · cases hfind
    obtain ⟨hrow, hguard⟩ := List.mem_filter.mp hmem
    simp only [Bool.not_eq_true, decide_eq_true_eq] at hguard
    cases h
    exact ⟨m, hrow, rfl, hguard.2.2.1, rfl⟩

/-! ## Opening -/

theorem openStorage_ok {orgId : String} (h : openStorage env now db = .ok (orgId, db')) :
    ∃ organizations idsDrawn, db.idsDrawn ≤ idsDrawn ∧
      db' = recoverDocuments (recoverDocuments (failStaleMemoryJobs (requeueJobs now
        { db with organizations, idsDrawn })) .document .queued) .memory .indexing := by
  unfold openStorage at h
  split at h
  · cases h
  · rename_i id dbs hseed
    cases h
    unfold seedOrganization at hseed
    split at hseed
    · cases hseed
      exact ⟨db.organizations, db.idsDrawn, le_refl _, rfl⟩
    · simp only at hseed
      split at hseed
      · cases hseed
      · cases hseed
        exact ⟨_, _, Nat.le_succ _, rfl⟩

end Storage
