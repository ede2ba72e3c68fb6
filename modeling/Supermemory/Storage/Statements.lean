-- SUMMARY: The statements that transactions are made of, and every call as a sequence of them.
import Supermemory.Library.References
import Supermemory.Storage.Consistency
import Supermemory.Storage.DocumentIdentity
import Supermemory.Storage.MemorySteps

/-!
# Statements

A call is a sequence of SQL statements. Each statement is given with what its call knows when
it runs it: that a row it refers to is there, that an assignment leaves alone who a row is
and whom it belongs to, and whose rows it touches. What every statement keeps, every call
keeps, and a statement that touches no row of an organization leaves that organization alone.
-/

namespace Storage

variable {env : Env} {now : Time} {mine : String → Prop} {db db' : Database}

/-- The `CHECK` constraints of a document row. -/
def Document.Allowed (d : Document) : Prop :=
  0 < d.revision ∧ (d.taskType = "memory" ∨ d.taskType = "superrag") ∧
    (d.dreaming = "instant" ∨ d.dreaming = "dynamic")

/-- What an `UPDATE` makes of a document. -/
structure Document.Becomes (d d' : Document) : Prop where
  orgId : d'.orgId = d.orgId
  revision : d.revision ≤ d'.revision
  allowed : d.Allowed → d'.Allowed

/-- What an `UPDATE` makes of a job. Only a memory job is put off. -/
structure Job.Becomes (now : Time) (j j' : Job) : Prop where
  same : SameJob j j'
  createdAt : j'.createdAt = j.createdAt
  availableAt : j.kind = .document → j'.availableAt = j.availableAt ∨ j'.availableAt = now
  active : j'.status.IsActive → j.status.IsActive
  known : j.status ≠ .unknown → j'.status ≠ .unknown

/-- The document with the identifier, if there is one, belongs to an organization that the call
    acts for. -/
def Owned (mine : String → Prop) (db : Database) (documentId : String) : Prop :=
  ∀ d ∈ db.documents, d.id = documentId → mine d.orgId

/-- One statement of a transaction that acts for some organizations. -/
inductive Statement (env : Env) (now : Time) (mine : String → Prop) (db : Database) : Database → Prop where
  | drawId : Statement env now mine db { db with idsDrawn := db.idsDrawn + 1 }
  | insertOrganization {o : Organization} {organizations : Table Organization Organization.id}
      (h : db.organizations.insert o = some organizations) : Statement env now mine db { db with organizations }
  | insertDocument {d : Document} {documents : Table Document Document.id}
      (hid : d.id = env.generateId db.idsDrawn) (hmine : mine d.orgId) (hallowed : d.Allowed)
      (horganization : ∃ o ∈ db.organizations, o.id = d.orgId) (h : db.documents.insert d = some documents) :
      Statement env now mine db { db with documents, idsDrawn := db.idsDrawn + 1 }
  | updateDocuments {p : Document → Prop} [DecidablePred p] {f : Document → Document}
      {hf : ∀ d, d.id = (f d).id} (h : ∀ d ∈ db.documents, p d → mine d.orgId ∧ d.Becomes (f d)) :
      Statement env now mine db { db with documents := db.documents.update p f hf }
  | deleteDocument {id : String} (hmine : Owned mine db id) : Statement env now mine db (db.deleteDocument id)
  | insertJob {db' : Database} {documentId : String} {kind : JobKind} {revision : Nat}
      (hmine : Owned mine db documentId) (hdocument : db.documentRevision documentId = some revision)
      (h : db.insertJob env now documentId kind revision = .ok db') : Statement env now mine db db'
  | updateJobs {p : Job → Prop} [DecidablePred p] {f : Job → Job} {hf : ∀ j, j.id = (f j).id}
      (h : ∀ j ∈ db.jobs, p j → Owned mine db j.documentId ∧ j.Becomes now (f j)) :
      Statement env now mine db { db with jobs := db.jobs.update p f hf }
  | deleteChunks {documentId : String} (hmine : Owned mine db documentId) :
      Statement env now mine db (deleteChunks db documentId)
  | insertChunk {db' : Database} {documentId content stableId : String} {ordinal chunkId : Nat}
      (hmine : Owned mine db documentId) (hdocument : ∃ d ∈ db.documents, d.id = documentId)
      (h : insertChunk db documentId ordinal content stableId = .ok (chunkId, db')) :
      Statement env now mine db db'
  | insertChunkEmbedding {db' : Database} {c : Chunk} {dimensions : Nat} {modelId : String} {vector : List F32}
      (hchunk : c ∈ db.chunks) (hmine : Owned mine db c.documentId)
      (h : insertChunkEmbedding db c.id modelId dimensions vector = .ok db') : Statement env now mine db db'
  | insertMemory {m : Memory} {memories : Table Memory Memory.id} (hmine : mine m.orgId) (hversion : 0 < m.version)
      (horganization : ∃ d ∈ db.documents, d.orgId = m.orgId)
      (hparent : ∀ id ∈ m.parentMemoryId, ∃ p ∈ db.memories, p.id = id ∧ SameProfile p m)
      (h : db.memories.insert m = some memories) :
      Statement env now mine db { db with memories, idsDrawn := db.idsDrawn + 1 }
  | updateMemories {p : Memory → Prop} [DecidablePred p] {f : Memory → Memory} {hf : ∀ m, m.id = (f m).id}
      (h : ∀ m ∈ db.memories, p m → mine m.orgId ∧ m.Becomes (f m)) :
      Statement env now mine db { db with memories := db.memories.update p f hf }
  | insertSource {m : Memory} {d : Document} {memorySources : Table MemorySource id} (hm : m ∈ db.memories)
      (hd : d ∈ db.documents) (horganization : m.orgId = d.orgId) (hmine : mine m.orgId)
      (h : db.memorySources.insert ⟨m.id, d.id⟩ = some memorySources) :
      Statement env now mine db { db with memorySources }
  | addRelation {parent child : Memory} {relation : String} (hparent : parent ∈ db.memories)
      (hchild : child ∈ db.memories) (hsame : SameProfile parent child) (hmine : mine child.orgId) :
      Statement env now mine db (addRelation db parent.id child.id relation)
  | insertMemoryEmbedding {db' : Database} {m : Memory} {dimensions : Nat} {modelId : String} {vector : List F32}
      (hm : m ∈ db.memories) (hmine : mine m.orgId)
      (h : insertMemoryEmbedding db m.id modelId dimensions vector = .ok db') : Statement env now mine db db'
  | deactivateVectors {p : MemoryEmbedding → Prop} [DecidablePred p]
      (h : ∀ e ∈ db.memoryEmbeddings, p e → ∀ m ∈ db.memories, m.id = e.memoryId → mine m.orgId) :
      Statement env now mine db { db with memoryEmbeddings := db.memoryEmbeddings.update p deactivated }

/-- The statements of a transaction, one after the other. -/
abbrev Statements (env : Env) (now : Time) (mine : String → Prop) : Database → Database → Prop :=
  Relation.ReflTransGen (Statement env now mine)

namespace Statements

/-- What every statement keeps, a transaction keeps. -/
theorem invariant {I : Database → Prop} (hstep : ∀ db db', I db → Statement env now mine db db' → I db')
    (h : Statements env now mine db db') (hI : I db) : I db' := by
  induction h with
  | refl => exact hI
  | tail _ hstatement ih => exact hstep _ _ ih hstatement

end Statements

-- ---------------------------------------------------------------------------
-- Documents
-- ---------------------------------------------------------------------------

theorem Job.Becomes.of_status {j j' : Job} (hsame : SameJob j j') (hcreated : j'.createdAt = j.createdAt)
    (havailable : j.kind = .document → j'.availableAt = j.availableAt ∨ j'.availableAt = now)
    (hactive : j'.status.IsActive → j.status.IsActive) (hknown : j'.status ≠ .unknown) : j.Becomes now j' :=
  ⟨hsame, hcreated, havailable, hactive, fun _ => hknown⟩

/-- A job that ends does not become active. -/
theorem Job.Becomes.of_settled {j j' : Job} (hsame : SameJob j j') (hcreated : j'.createdAt = j.createdAt)
    (havailable : j'.availableAt = j.availableAt) (hsettled : j'.status = .done ∨ j'.status = .failed) :
    j.Becomes now j' := by
  cases hsettled with
  | inl h =>
    refine .of_status hsame hcreated (fun _ => .inl havailable) (fun hactive => ?_) (by rw [h]; nofun)
    exact absurd (h ▸ hactive) DocumentState.not_isActive_done
  | inr h =>
    refine .of_status hsame hcreated (fun _ => .inl havailable) (fun hactive => ?_) (by rw [h]; nofun)
    exact absurd (h ▸ hactive) DocumentState.not_isActive_failed

theorem setDocumentStatus_statement {id : String} {revision : Nat} {status : DocumentState} (hmine : Owned mine db id) :
    Statement env now mine db (db.setDocumentStatus id revision status) :=
  .updateDocuments fun d hd hguard => ⟨hmine d hd hguard.1, rfl, Nat.le_refl _, fun h => h⟩

theorem markMemoryJobsStale_statement {id : String} (hmine : Owned mine db id) :
    Statement env now mine db (markMemoryJobsStale db id) := by
  refine .updateJobs fun j _ hguard => ⟨?_, .of_settled ⟨rfl, rfl, rfl, rfl⟩ rfl rfl (.inr rfl)⟩
  rw [hguard.1]
  exact hmine

theorem enqueueUnlessActive_statements {id : String} {enqueued : Bool} (hmine : Owned mine db id)
    (h : enqueueUnlessActive env now db id = .ok (enqueued, db')) : Statements env now mine db db' := by
  cases enqueueUnlessActive_ok h with
  | inl hactive =>
    rw [hactive.2]
  | inr hinsert =>
    obtain ⟨_, d, hd, hid, hjob⟩ := hinsert
    exact .single (.insertJob hmine (documentRevision_eq_some.mpr ⟨d, hd, hid, rfl⟩) hjob)

/-- A document that is rewritten may be rewritten. -/
theorem updateFull_allowed {id : String} {input : UpsertDocument} {hash : String} {metadata : Object}
    {status : DocumentState} (h : updateFull db id input hash metadata status = .ok db') : input.Allowed := by
  unfold updateFull at h
  split at h
  · assumption
  · cases h

theorem updateFull_statements {id : String} {input : UpsertDocument} {hash : String} {metadata : Object}
    {status : DocumentState} (hmine : Owned mine db id)
    (h : updateFull db id input hash metadata status = .ok db') :
    Statements env now mine db db' ∧ Owned mine db' id := by
  have hallowed := updateFull_allowed h
  obtain rfl := updateFull_ok h
  have howned : Owned mine { db with
      documents := db.documents.update (fun d => d.id = id) (rewritten input hash metadata status) } id := by
    intro d' hd' hid
    have hmem : d' ∈ db.documents.update (fun d => d.id = id) (rewritten input hash metadata status) := hd'
    obtain ⟨d, hd, hkey, rfl⟩ := Table.of_mem_update hmem
    have horg := hmine d hd (hkey.trans hid)
    split
    · exact horg
    · exact horg
  refine ⟨.tail (.single (.updateDocuments fun d hd hid => ?_)) (markMemoryJobsStale_statement howned), howned⟩
  exact ⟨hmine d hd hid, rfl, Nat.le_succ _, fun h => ⟨Nat.succ_pos _, hallowed⟩⟩

theorem requeue_statements {existing : Document} {input : UpsertDocument} {hash : String} {result : UpsertResult}
    (hmine : Owned mine db existing.id) (h : requeue env now db existing input hash = .ok (result, db')) :
    Statements env now mine db db' := by
  obtain ⟨metadata, dbu, enqueued, hupdate, henqueue⟩ := requeue_ok h
  have hupdated : Statements env now mine db dbu ∧ Owned mine dbu existing.id := updateFull_statements hmine hupdate
  exact hupdated.1.trans (enqueueUnlessActive_statements hupdated.2 henqueue)

theorem applyExisting_statements {existing : Document} {input : UpsertDocument} {hash : String}
    {result : UpsertResult} (hmine : Owned mine db existing.id)
    (h : applyExisting env now db existing input hash = .ok (result, db')) : Statements env now mine db db' := by
  rcases applyExisting_ok h with rfl | ⟨metadata, rfl⟩ | ⟨_, hrequeue⟩
  · exact .refl
  · exact .single (.updateDocuments fun d hd hid => ⟨hmine d hd hid, rfl, Nat.le_refl _, fun h => h⟩)
  · exact requeue_statements hmine hrequeue

theorem insertNew_statements {orgId : String} {input : UpsertDocument} {hash : String} {result : UpsertResult}
    (hmine : mine orgId) (h : insertNew env now db orgId input hash = .ok (result, db')) :
    Statements env now mine db db' := by
  unfold insertNew at h
  simp only at h
  split at h
  · rename_i hguard
    split at h
    · cases h
    · rename_i documents hinsert
      split at h
      · cases h
      · rename_i henqueue
        cases h
        refine .trans (.single (.insertDocument rfl hmine ?_ hguard.2 hinsert))
          (enqueueUnlessActive_statements ?_ henqueue)
        · exact ⟨Nat.one_pos, hguard.1⟩
        intro d hd hid
        cases (Table.mem_insert hinsert).mp hd with
        | inl hold => exact absurd hid (Table.insert_fresh hinsert d hold)
        | inr hnew => exact hnew ▸ hmine
  · cases h

/-- The document that an upsert finds belongs to the organization. -/
theorem findExisting_orgId {orgId : String} {input : UpsertDocument} {hash : String} {d : Document}
    (h : findExisting db orgId input hash = some d) : d.orgId = orgId := by
  cases hcustom : input.customId with
  | some customId =>
    rw [findExisting_custom hcustom] at h
    exact (findCustom_some h).2.1
  | none =>
    rw [findExisting_content hcustom] at h
    have hguard := List.find?_some h
    simp only [decide_eq_true_eq] at hguard
    exact hguard.1.1

/-- There is one document with an identifier. -/
theorem owned_of_mem {d : Document} (hd : d ∈ db.documents) (hmine : mine d.orgId) : Owned mine db d.id := by
  intro d' hd' hid
  rw [Table.eq_of_key hd' hd hid]
  exact hmine

theorem upsertDocumentFor_statements {orgId : String} {input : UpsertDocument} {result : UpsertResult}
    (hmine : mine orgId) (h : upsertDocumentFor env now orgId input db = .ok (result, db')) :
    Statements env now mine db db' := by
  rw [upsertDocumentFor_eq] at h
  split at h
  · rename_i existing hfind
    refine applyExisting_statements (owned_of_mem (findExisting_mem hfind) ?_) h
    rw [findExisting_orgId hfind]
    exact hmine
  · exact insertNew_statements hmine h

theorem findIdentifier_some {orgId identifier : String} {d : Document}
    (h : findIdentifier db orgId identifier = some d) : d ∈ db.documents ∧ d.orgId = orgId := by
  have hmem : d ∈ db.documents.rows.filter fun d =>
      d.orgId = orgId ∧ (d.id = identifier ∨ d.customId = some identifier) := by
    unfold findIdentifier at h
    simp only at h
    cases Option.or_eq_some_iff.mp h with
    | inl hfind => exact List.mem_of_find?_eq_some hfind
    | inr hhead => exact List.mem_of_head? hhead.2
  obtain ⟨hd, hguard⟩ := List.mem_filter.mp hmem
  simp only [decide_eq_true_eq] at hguard
  exact ⟨hd, hguard.1⟩

theorem deleteDocumentFor_statements {orgId : String} (identifier : String) (hmine : mine orgId) :
    Statements env now mine db (deleteDocumentFor orgId identifier db).2 := by
  unfold deleteDocumentFor
  split
  · exact .refl
  · rename_i d hfind
    obtain ⟨hd, horg⟩ := findIdentifier_some hfind
    exact .single (.deleteDocument (owned_of_mem hd (horg ▸ hmine)))

-- ---------------------------------------------------------------------------
-- Document jobs
-- ---------------------------------------------------------------------------

/-- The job row with the identifier, if there is one, is a row of the document. -/
def RowOf (db : Database) (id documentId : String) : Prop := ∀ j ∈ db.jobs, j.id = id → j.documentId = documentId

/-- An `UPDATE` of one job row. -/
theorem updateRow_statement {id documentId : String} {p : Job → Prop} [DecidablePred p] {f : Job → Job}
    {hf : ∀ j, j.id = (f j).id} (hmine : Owned mine db documentId) (hrow : RowOf db id documentId)
    (hp : ∀ j, p j → j.id = id) (hf' : ∀ j ∈ db.jobs, p j → j.Becomes now (f j)) :
    Statement env now mine db { db with jobs := db.jobs.update p f hf } := by
  refine .updateJobs fun j hj hguard => ⟨?_, hf' j hj hguard⟩
  rw [hrow j hj (hp j hguard)]
  exact hmine

theorem startJob_statement {id documentId : String} {revision : Nat} (hmine : Owned mine db documentId)
    (hrow : RowOf db id documentId) : Statement env now mine db (startJob db id revision) := by
  refine updateRow_statement hmine hrow (fun _ hguard => hguard.1) fun j _ hguard => ?_
  refine .of_status ⟨rfl, rfl, rfl, rfl⟩ rfl (fun _ => .inl rfl) (fun _ => ?_) nofun
  rw [hguard.2.2]
  exact DocumentState.isActive_queued

theorem rowOf_mem {j : Job} (hj : j ∈ db.jobs) : RowOf db j.id j.documentId := by
  intro j' hj' hid
  rw [Table.eq_of_key hj' hj hid]

theorem claimJob_statements {k : ClaimedJob} (hmine : Owned mine db k.documentId)
    (h : claimJob now db = (some k, db')) : Statements env now mine db db' := by
  obtain ⟨j, d, hj, _, hid, _, _, _, rfl, rfl⟩ := claimJob_some h
  have hrow : RowOf db j.id d.id := hid ▸ rowOf_mem hj
  exact .tail (.single (startJob_statement hmine hrow)) (setDocumentStatus_statement hmine)

theorem markJobStage_statements {k : ClaimedJob} {stage : DocumentState} (hmine : Owned mine db k.documentId)
    (hrow : RowOf db k.id k.documentId) (h : markJobStage k stage db = .ok db') :
    Statements env now mine db db' := by
  obtain ⟨expected, hexpected, _, _, rfl⟩ := markJobStage_ok h
  obtain ⟨hstage, hclaimed⟩ := expectedStage_claimed hexpected
  refine .tail (.single (updateRow_statement hmine hrow (fun _ hguard => hguard.1) fun j _ hguard => ?_))
    (setDocumentStatus_statement hmine)
  refine .of_status ⟨rfl, rfl, rfl, rfl⟩ rfl (fun _ => .inl rfl) (fun _ => ?_) fun hunknown => ?_
  · rw [hguard.2.2]
    exact hclaimed.isActive
  · have hstage : stage.IsClaimed := hstage
    rw [show stage = .unknown from hunknown] at hstage
    exact absurd hstage (by decide)

theorem finishJob_statement {id documentId : String} {revision : Nat} (hmine : Owned mine db documentId)
    (hrow : RowOf db id documentId) : Statement env now mine db (finishJob db id revision) :=
  updateRow_statement hmine hrow (fun _ hguard => hguard.1) fun _ _ _ =>
    .of_settled ⟨rfl, rfl, rfl, rfl⟩ rfl rfl (.inl rfl)

theorem insertEmbeddedChunk_statements {documentId stableId : String} {embedding : Option (String × Nat)}
    {ordinal : Nat} {chunk : EmbeddedChunk} (hmine : Owned mine db documentId)
    (hdocument : ∃ d ∈ db.documents, d.id = documentId)
    (h : insertEmbeddedChunk documentId embedding ordinal chunk stableId db = .ok db') :
    Statements env now mine db db' := by
  unfold insertEmbeddedChunk at h
  split at h
  · cases h
  · rename_i chunkId dbc hinsert
    have hchunk : Statement env now mine db dbc := .insertChunk hmine hdocument hinsert
    obtain ⟨hsame, hrows⟩ := insertChunk_ok hinsert
    split at h
    · cases h
      exact .single hchunk
    · have hrow : (⟨chunkId, documentId, ordinal, chunk.content, stableId⟩ : Chunk) ∈ chunkRows dbc documentId := by
        rw [hrows]
        exact List.mem_append_right _ List.mem_cons_self
      have howned : Owned mine dbc documentId := by
        unfold Owned
        rw [hsame.documents]
        exact hmine
      exact .tail (.single hchunk) (.insertChunkEmbedding (List.mem_filter.mp hrow).1 howned h)

theorem insertChunks_statements {documentId : String} {embedding : Option (String × Nat)}
    {existing : List ((Nat × String) × String)} {ordinal : Nat} {chunks : List EmbeddedChunk}
    (hmine : Owned mine db documentId) (hdocument : ∃ d ∈ db.documents, d.id = documentId)
    (h : insertChunks env documentId embedding existing ordinal chunks db = .ok db') :
    Statements env now mine db db' := by
  induction chunks generalizing ordinal db with
  | nil =>
    cases h
    exact .refl
  | cons chunk rest ih =>
    obtain ⟨stableId, idsDrawn, dbc, hchoice, hinsert, hloop⟩ := insertChunks_cons h
    have hdraw : Statements env now mine db { db with idsDrawn } := by
      cases hchoice with
      | inl hkept => rw [hkept.2]
      | inr hnew =>
        rw [hnew.2.2]
        exact .single .drawId
    obtain ⟨hsame, _⟩ := insertEmbeddedChunk_ok hinsert
    have hdocuments : dbc.documents = db.documents := hsame.documents
    refine (hdraw.trans (insertEmbeddedChunk_statements hmine hdocument hinsert)).trans (ih ?_ ?_ hloop)
    · unfold Owned
      rw [hdocuments]
      exact hmine
    · rw [hdocuments]
      exact hdocument

theorem publishJob_statements {k : ClaimedJob} {chunks : List EmbeddedChunk} {embedding : Option (String × Nat)}
    {schedule : Bool} (hmine : Owned mine db k.documentId) (hrow : RowOf db k.id k.documentId)
    (h : publishJob env now k chunks embedding schedule db = .ok db') : Statements env now mine db db' := by
  obtain ⟨hcurrent, dbc, hchunks, hfinish⟩ := publishJob_inserts h
  obtain ⟨d, hd, hid, _⟩ := documentRevision_eq_some.mp hcurrent
  obtain ⟨hinserted, _⟩ := insertChunks_ok hchunks
  have hsame := (deleteChunks_same db k.documentId).trans hinserted
  have hchunks : Statements env now mine db dbc :=
    .trans (.single (.deleteChunks hmine)) (insertChunks_statements hmine ⟨d, hd, hid⟩ hchunks)
  have howned : Owned mine dbc k.documentId := by
    unfold Owned
    rw [hsame.documents]
    exact hmine
  have hrow : RowOf dbc k.id k.documentId := by
    unfold RowOf
    rw [hsame.jobs]
    exact hrow
  have hdone : Statements env now mine db (finishJob dbc k.id k.revision) :=
    hchunks.tail (finishJob_statement howned hrow)
  cases schedule with
  | false =>
    obtain rfl : db' = _ := hfinish
    exact hdone.tail (setDocumentStatus_statement howned)
  | true =>
    obtain ⟨dbj, hjob, rfl⟩ := hfinish
    have hrevision : (finishJob dbc k.id k.revision).documentRevision k.documentId = some k.revision := by
      unfold Database.documentRevision finishJob
      rw [hsame.documents]
      exact hcurrent
    refine (hdone.tail (.insertJob howned hrevision hjob)).tail (setDocumentStatus_statement ?_)
    obtain ⟨_, _, _, rfl⟩ := insertJob_ok hjob
    exact howned

theorem failJob_statements {k : ClaimedJob} (error : String) (hmine : Owned mine db k.documentId)
    (hrow : RowOf db k.id k.documentId) : Statements env now mine db (failJob k error db) := by
  have hfailed : Statement env now mine db { db with
      jobs := db.jobs.update (fun j => j.id = k.id ∧ j.revision = k.revision)
        (fun j => { j with status := .failed, lastError := some error }) } :=
    updateRow_statement hmine hrow (fun _ hguard => hguard.1) fun _ _ _ =>
      .of_settled ⟨rfl, rfl, rfl, rfl⟩ rfl rfl (.inr rfl)
  exact .tail (.single hfailed) (setDocumentStatus_statement hmine)

-- ---------------------------------------------------------------------------
-- Memory jobs
-- ---------------------------------------------------------------------------

theorem claimMemoryJob_statements {m : ClaimedMemoryJob} (hmine : Owned mine db m.documentId)
    (h : claimMemoryJob now db = .ok (some m, db')) : Statements env now mine db db' := by
  obtain ⟨j, d, hj, _, hid, _, _, _, hmid, hmdocument, _, rfl⟩ := claimMemoryJob_some h
  have hrow : RowOf db m.id m.documentId := by
    rw [hmid, hmdocument, hid]
    exact rowOf_mem hj
  exact .single (startJob_statement hmine hrow)

theorem markMemoryJobStale_statement {id documentId : String} {revision : Nat} (hmine : Owned mine db documentId)
    (hrow : RowOf db id documentId) : Statement env now mine db (markMemoryJobStale db id revision) :=
  updateRow_statement hmine hrow (fun _ hguard => hguard.1) fun _ _ _ =>
    .of_settled ⟨rfl, rfl, rfl, rfl⟩ rfl rfl (.inr rfl)

theorem cacheMemoryExtraction_statements {m : ClaimedMemoryJob} (result : String)
    (hmine : Owned mine db m.documentId) (hrow : RowOf db m.id m.documentId) :
    Statements env now mine db (cacheMemoryExtraction m result db).2 := by
  rcases cacheMemoryExtraction_cases m result db with ⟨_, heq⟩ | ⟨_, heq⟩
  · rw [heq]
    have hrows (j : Job) (hguard : Cacheable db m j) : j.id = m.id := hguard.1
    exact .single (updateRow_statement hmine hrow hrows fun _ _ _ =>
      ⟨⟨rfl, rfl, rfl, rfl⟩, rfl, fun _ => .inl rfl, id, id⟩)
  · rw [heq]
    exact .single (markMemoryJobStale_statement hmine hrow)

theorem finishMemoryJob_statement {id documentId : String} {revision : Nat} (hmine : Owned mine db documentId)
    (hrow : RowOf db id documentId) : Statement env now mine db (finishMemoryJob db id revision) :=
  updateRow_statement hmine hrow (fun _ hguard => hguard.1) fun _ _ _ =>
    .of_settled ⟨rfl, rfl, rfl, rfl⟩ rfl rfl (.inl rfl)

theorem completeMemoryJob_statements {m : ClaimedMemoryJob} (hmine : Owned mine db m.documentId)
    (hrow : RowOf db m.id m.documentId) (h : completeMemoryJob m db = .ok db') :
    Statements env now mine db db' := by
  rcases completeMemoryJob_ok h with ⟨_, rfl⟩ | ⟨_, _, rfl⟩
  · exact .single (updateRow_statement hmine hrow (fun _ hguard => hguard.1) fun _ _ _ =>
      .of_settled ⟨rfl, rfl, rfl, rfl⟩ rfl rfl (.inr rfl))
  · exact .tail (.single (finishMemoryJob_statement hmine hrow)) (setDocumentStatus_statement hmine)

theorem retriedJob_statement {m : ClaimedMemoryJob} {status : DocumentState} {errorKind error : String}
    {availableAt : Time} (hmine : Owned mine db m.documentId) (hrow : RowOf db m.id m.documentId)
    (hkind : ∀ j ∈ db.jobs, j.id = m.id → j.kind = .memory) (hknown : status ≠ .unknown) :
    Statement env now mine db (retriedJob db m status errorKind error availableAt) := by
  refine updateRow_statement hmine hrow (fun _ hguard => hguard.1) fun j hj hguard => ?_
  refine .of_status ⟨rfl, rfl, rfl, rfl⟩ rfl (fun hdocument => ?_) (fun _ => ?_) hknown
  · rw [hkind j hj hguard.1] at hdocument
    exact absurd hdocument JobKind.noConfusion
  · rw [hguard.2.2]
    exact DocumentState.isActive_extracting

theorem retryMemoryJob_statements {m : ClaimedMemoryJob} {errorKind error : String} {retryDelay : Option Nat}
    (hmine : Owned mine db m.documentId) (hrow : RowOf db m.id m.documentId)
    (hkind : ∀ j ∈ db.jobs, j.id = m.id → j.kind = .memory)
    (h : retryMemoryJob now m errorKind error retryDelay db = .ok db') : Statements env now mine db db' := by
  rcases retryMemoryJob_ok h with ⟨_, rfl⟩ | ⟨_, _, availableAt, ⟨_, rfl⟩ | rfl⟩
  · exact .single (markMemoryJobStale_statement hmine hrow)
  · exact .single (retriedJob_statement hmine hrow hkind DocumentState.noConfusion)
  · have hfailed : Statement env now mine db (retriedJob db m .failed errorKind error availableAt) :=
      retriedJob_statement hmine hrow hkind DocumentState.noConfusion
    exact .tail (.single hfailed) (setDocumentStatus_statement hmine)

-- ---------------------------------------------------------------------------
-- Memories
-- ---------------------------------------------------------------------------

/-- A memory of the profile that a batch is about. -/
def IsMember (batch : Batch) (db : Database) (id : String) : Prop :=
  ∃ m ∈ db.memories, m.id = id ∧ m.orgId = batch.orgId ∧ m.containerTag = batch.containerTag

/-- No statement loses a memory or moves it to another profile. -/
theorem Statement.isMember {batch : Batch} {id : String} (h : Statement env now mine db db')
    (hmember : IsMember batch db id) : IsMember batch db' id := by
  obtain ⟨m, hm, hid, hprofile⟩ := hmember
  cases h with
  | insertMemory _ _ _ _ hinsert => exact ⟨m, (Table.mem_insert hinsert).mpr (.inl hm), hid, hprofile⟩
  | @updateMemories p _ f hf hbecomes =>
    have hmem : (if p m then f m else m) ∈ db.memories.update p f hf := Table.update_mem hm
    refine ⟨_, hmem, ?_⟩
    split
    · rename_i hguard
      have hbecomes := (hbecomes m hm hguard).2
      exact ⟨hbecomes.id.trans hid, hbecomes.profile.1.trans hprofile.1, hbecomes.profile.2.trans hprofile.2⟩
    · exact ⟨hid, hprofile⟩
  | insertJob _ _ hjob =>
    obtain ⟨_, _, _, rfl⟩ := insertJob_ok hjob
    exact ⟨m, hm, hid, hprofile⟩
  | insertChunk _ _ hchunk =>
    have hmemories := (insertChunk_ok hchunk).1.memories
    exact ⟨m, hmemories ▸ hm, hid, hprofile⟩
  | insertChunkEmbedding _ _ hembed =>
    obtain ⟨_, rfl⟩ := insertChunkEmbedding_ok hembed
    exact ⟨m, hm, hid, hprofile⟩
  | addRelation =>
    refine ⟨m, ?_, hid, hprofile⟩
    rw [addRelation_sameMemories.1]
    exact hm
  | insertMemoryEmbedding _ _ hembed =>
    obtain ⟨_, rfl, _⟩ := insertMemoryEmbedding_ok hembed
    exact ⟨m, hm, hid, hprofile⟩
  | drawId | insertOrganization | insertDocument | updateDocuments | deleteDocument | updateJobs | deleteChunks
    | insertSource | deactivateVectors => exact ⟨m, hm, hid, hprofile⟩

theorem Statements.isMember {batch : Batch} {id : String} (h : Statements env now mine db db')
    (hmember : IsMember batch db id) : IsMember batch db' id :=
  h.invariant (fun _ _ hmember hstatement => hstatement.isMember hmember) hmember

/-- Taking a memory out of its profile, with its vector. -/
theorem withdrawMemory_statements {id : String} {f : Memory → Memory} {hf : ∀ m, m.id = (f m).id}
    (hwithdrawal : Withdrawal f) (hmine : ∀ m ∈ db.memories, m.id = id → mine m.orgId) :
    Statements env now mine db { db with
      memories := db.memories.update (fun m => m.id = id) f hf
      memoryEmbeddings := db.memoryEmbeddings.update (fun e => e.memoryId = id) deactivated } := by
  have hwithdrawn : Statement env now mine db
      { db with memories := db.memories.update (fun m => m.id = id) f hf } :=
    .updateMemories fun m hm hguard => ⟨hmine m hm hguard, hwithdrawal.becomes m⟩
  refine .tail (.single hwithdrawn) (.deactivateVectors fun e _ hguard m hm hid => ?_)
  have hmem : m ∈ db.memories.update (fun m => m.id = id) f hf := hm
  obtain ⟨m₀, hm₀, hkey, rfl⟩ := Table.of_mem_update hmem
  have horg := hmine m₀ hm₀ (hkey.trans (hid.trans hguard))
  split
  · rw [(hwithdrawal.becomes m₀).profile.1]
    exact horg
  · exact horg

theorem retireMemory_statements {id : String} (hmine : ∀ m ∈ db.memories, m.id = id → mine m.orgId) :
    Statements env now mine db (retireMemory now db id) :=
  withdrawMemory_statements (retired_withdrawal now) hmine

theorem isMember_mine {batch : Batch} {id : String} (hmine : mine batch.orgId) (hmember : IsMember batch db id) :
    ∀ m ∈ db.memories, m.id = id → mine m.orgId := by
  obtain ⟨m, hm, hid, horg, _⟩ := hmember
  intro m' hm' hid'
  rw [Table.eq_of_key hm' hm (hid'.trans hid.symm), horg]
  exact hmine

theorem linkParent_statements {batch : Batch} {childId : String} {parent : ResolvedParent} (hmine : mine batch.orgId)
    (hchild : IsMember batch db childId) (hparent : IsMember batch db parent.id) :
    Statements env now mine db (linkParent now childId db parent) := by
  have hrelation : Statement env now mine db (addRelation db parent.id childId parent.relation) := by
    obtain ⟨c, hc, rfl, hcorg, hccontainer⟩ := hchild
    obtain ⟨p, hp, hpid, hporg, hpcontainer⟩ := hparent
    rw [← hpid]
    exact .addRelation hp hc ⟨hporg.trans hcorg.symm, hpcontainer.trans hccontainer.symm⟩ (hcorg ▸ hmine)
  unfold linkParent
  simp only
  split
  · exact .trans (.single hrelation) (retireMemory_statements (isMember_mine hmine (hrelation.isMember hparent)))
  · exact .single hrelation

theorem linkParents_statements {batch : Batch} {childId : String} {parents : List ResolvedParent}
    (hmine : mine batch.orgId) (hchild : IsMember batch db childId)
    (hparents : ∀ p ∈ parents, IsMember batch db p.id) :
    Statements env now mine db (parents.foldl (linkParent now childId) db) := by
  induction parents generalizing db with
  | nil => exact .refl
  | cons parent rest ih =>
    have hlink : Statements env now mine db (linkParent now childId db parent) :=
      linkParent_statements hmine hchild (hparents parent List.mem_cons_self)
    refine hlink.trans (ih (hlink.isMember hchild) fun p hp => ?_)
    exact hlink.isMember (hparents p (List.mem_cons_of_mem parent hp))

/-- The content map of a reconciliation names memories of its profile. -/
def NamesMembers (batch : Batch) (s : Reconciliation) : Prop :=
  ∀ content id, s.exactMemories.lookup content = some id → IsMember batch s.db id

theorem resolveMemoryParents_isMember {batch : Batch} {parents : List MemoryParent}
    {temporaryIds : List (String × String)} :
    ∀ p ∈ resolveMemoryParents db batch.orgId batch.containerTag parents temporaryIds, IsMember batch db p.id := by
  intro p hp
  obtain ⟨m, hm, hid, horg, hcontainer, _⟩ := mem_resolveMemoryParents hp
  exact ⟨m, hm, hid, horg, hcontainer⟩

/-- The version of a new memory is positive, whatever its parents are. -/
theorem newMemory_version_pos (batch : Batch) (proposal : MemoryProposal) (parents : List ResolvedParent)
    (id : String) : 0 < (newMemory env now batch proposal parents id).version := by
  cases parents with
  | nil => exact Nat.one_pos
  | cons parent rest => exact Nat.succ_pos _

theorem reconcileProposal_statements {batch : Batch} {proposal : MemoryProposal} {s s' : Reconciliation}
    {d : Document} (hmine : mine batch.orgId) (hd : d ∈ s.db.documents) (hid : d.id = batch.documentId)
    (horg : d.orgId = batch.orgId) (hmembers : NamesMembers batch s)
    (h : reconcileProposal env now batch s proposal = .ok s') :
    Statements env now mine s.db s'.db ∧ NamesMembers batch s' := by
  unfold reconcileProposal at h
  simp only at h
  split at h
  · rename_i existingId hlookup
    cases h
    have hsource : Statements env now mine s.db (addSource s.db existingId batch.documentId) := by
      obtain ⟨m, hm, rfl, hmorg, _⟩ := hmembers _ _ hlookup
      unfold addSource
      cases hinsert : s.db.memorySources.insert ⟨m.id, batch.documentId⟩ with
      | none => exact .refl
      | some memorySources =>
        rw [← hid] at hinsert
        exact .single (.insertSource hm hd (hmorg.trans horg.symm) (hmorg ▸ hmine) hinsert)
    exact ⟨hsource, fun content id hcontent => hsource.isMember (hmembers content id hcontent)⟩
  · split at h
    · rename_i memories memorySources hmemory hsource
      split at h
      · cases h
      · rename_i dbe hembed
        cases h
        let id := "mem_" ++ env.generateId s.db.idsDrawn
        let parents := resolveMemoryParents s.db batch.orgId batch.containerTag proposal.parents s.temporaryIds
        let child := newMemory env now batch proposal parents id
        have hparents : ∀ p ∈ parents, IsMember batch s.db p.id := resolveMemoryParents_isMember
        have hparent : ∀ id ∈ child.parentMemoryId, ∃ p ∈ s.db.memories, p.id = id ∧ SameProfile p child := by
          intro id hparent
          obtain ⟨p, hp, rfl⟩ := Option.map_eq_some_iff.mp hparent
          obtain ⟨m, hm, hmid, hmprofile⟩ := hparents p (List.mem_of_head? hp)
          exact ⟨m, hm, hmid, hmprofile⟩
        have hinserted : Statements env now mine s.db { s.db with memories, idsDrawn := s.db.idsDrawn + 1 } :=
          .single (.insertMemory hmine (newMemory_version_pos batch proposal parents id) ⟨d, hd, horg⟩ hparent hmemory)
        have hchild : child ∈ memories := (Table.mem_insert hmemory).mpr (.inr rfl)
        have hsourced : Statements env now mine s.db
            { s.db with memories, memorySources, idsDrawn := s.db.idsDrawn + 1 } := by
          refine hinserted.tail (.insertSource hchild hd horg.symm hmine ?_)
          rw [hid]
          exact hsource
        have hmember : IsMember batch { s.db with memories, memorySources, idsDrawn := s.db.idsDrawn + 1 } id :=
          ⟨child, hchild, rfl, rfl, rfl⟩
        have hlinked : Statements env now mine _ _ :=
          linkParents_statements hmine hmember fun p hp => hsourced.isMember (hparents p hp)
        obtain ⟨c, hc, hcid, hcorg, _⟩ := hlinked.isMember hmember
        have hembedded : Statement env now mine _ dbe :=
          .insertMemoryEmbedding hc (hcorg ▸ hmine) (by rw [hcid]; exact hembed)
        have hall : Statements env now mine s.db dbe := (hsourced.trans hlinked).tail hembedded
        refine ⟨hall, fun content id' hcontent => ?_⟩
        rw [List.lookup_cons] at hcontent
        split at hcontent
        · cases hcontent
          exact hembedded.isMember (hlinked.isMember hmember)
        · exact hall.isMember (hmembers content id' hcontent)
    · cases h

theorem reconcileProposals_statements {batch : Batch} {proposals : List MemoryProposal} {s s' : Reconciliation}
    {d : Document} (hmine : mine batch.orgId) (hd : d ∈ s.db.documents) (hid : d.id = batch.documentId)
    (horg : d.orgId = batch.orgId) (hmembers : NamesMembers batch s)
    (h : reconcileProposals env now batch proposals s = .ok s') : Statements env now mine s.db s'.db := by
  induction proposals generalizing s with
  | nil =>
    cases h
    exact .refl
  | cons proposal rest ih =>
    rw [reconcileProposals] at h
    split at h
    · cases h
    · rename_i t hone
      obtain ⟨hstatements, hmembers'⟩ := reconcileProposal_statements hmine hd hid horg hmembers hone
      exact hstatements.trans (ih ((reconcileProposal_memoriesOnly hone).documents ▸ hd) hmembers' h)

theorem finishReconciliation_statements {jobId documentId : String} {revision : Nat}
    (hmine : Owned mine db documentId) (h : finishReconciliation db jobId documentId revision = .ok db') :
    Statements env now mine db db' := by
  obtain ⟨_, rfl⟩ := finishReconciliation_ok h
  have hfinished : Statement env now mine db (finishedReconciliation db jobId documentId revision) :=
    .updateJobs fun j _ hguard => ⟨hguard.2.1 ▸ hmine, .of_settled ⟨rfl, rfl, rfl, rfl⟩ rfl rfl (.inl rfl)⟩
  exact .tail (.single hfinished) (setDocumentStatus_statement hmine)

theorem reconcileMemoriesFor_statements {batch : Batch} {expectedRevision : Option Nat}
    {completionJobId : Option String} {proposals : List MemoryProposal} {records : List MemoryRecord}
    (hmine : mine batch.orgId) (h : reconcileMemoriesFor env now batch expectedRevision completionJobId proposals db =
      .ok (records, db')) : Statements env now mine db db' := by
  obtain ⟨d, hd, hid, horg, s, hloop, _, hfinish⟩ := reconcileMemoriesFor_ok h
  have hmembers : NamesMembers batch (reconciliationStart env batch db) := by
    intro content id hlookup
    obtain ⟨m, hm, hmid, hmorg, hcontainer, _⟩ := activeMemoryIdsByContent_sound hlookup
    exact ⟨m, hm, hmid, hmorg, hcontainer⟩
  have hstatements : Statements env now mine db s.db :=
    reconcileProposals_statements (s := reconciliationStart env batch db) hmine hd hid horg hmembers hloop
  cases hfinish with
  | inl hnone =>
    obtain ⟨_, rfl⟩ := hnone
    exact hstatements
  | inr hsome =>
    obtain ⟨jobId, _, hfinish⟩ := hsome
    have hdocuments : s.db.documents = db.documents := (reconcileProposals_memoriesOnly hloop).documents
    refine hstatements.trans (finishReconciliation_statements ?_ hfinish)
    unfold Owned
    rw [hdocuments, ← hid]
    exact owned_of_mem hd (horg ▸ hmine)

theorem findForgettable_some {orgId containerTag : String} {id content : Option String} {m : Memory}
    (h : findForgettable env now db orgId id content containerTag = some m) :
    m ∈ db.memories ∧ m.orgId = orgId ∧ m.containerTag = containerTag := by
  have hmem : m ∈ db.memories.rows.filter fun m =>
      m.orgId = orgId ∧ m.containerTag = containerTag ∧ ¬ m.isForgotten ∧ Unexpired env now m := by
    unfold findForgettable at h
    simp only at h
    split at h
    · exact List.mem_of_find?_eq_some h
    · exact List.mem_of_find?_eq_some h
    · cases h
  obtain ⟨hm, hguard⟩ := List.mem_filter.mp hmem
  simp only [decide_eq_true_eq] at hguard
  exact ⟨hm, hguard.1, hguard.2.1⟩

theorem forgetMemoryFor_statements {orgId containerTag memoryId : String} {id content reason : Option String}
    (hmine : mine orgId)
    (h : forgetMemoryFor env now orgId id content containerTag reason db = .ok (memoryId, db')) :
    Statements env now mine db db' := by
  unfold forgetMemoryFor at h
  split at h
  · cases h
  · rename_i m hfind
    obtain ⟨hm, horg, _⟩ := findForgettable_some hfind
    cases h
    refine withdrawMemory_statements (forgotten_withdrawal env now reason) fun m' hm' hid => ?_
    rw [Table.eq_of_key hm' hm hid, horg]
    exact hmine

-- ---------------------------------------------------------------------------
-- Opening
-- ---------------------------------------------------------------------------

/-- An organization table with a new organization in it, and the identifier that was drawn for it. -/
theorem seedOrganization_statements {orgId : String} (h : seedOrganization env db = .ok (orgId, db')) :
    Statements env now mine db db' := by
  unfold seedOrganization at h
  split at h
  · cases h
    exact .refl
  · simp only at h
    split at h
    · cases h
    · rename_i hinsert
      cases h
      exact .tail (.single (.insertOrganization hinsert)) .drawId

theorem recoverDocuments_statement {kind : JobKind} {status : DocumentState} (hmine : ∀ orgId, mine orgId) :
    Statement env now mine db (recoverDocuments db kind status) :=
  .updateDocuments fun d _ _ => ⟨hmine d.orgId, rfl, Nat.le_refl _, fun h => h⟩

theorem openStorage_statements {orgId : String} (hmine : ∀ orgId, mine orgId)
    (h : openStorage env now db = .ok (orgId, db')) : Statements env now mine db db' := by
  unfold openStorage at h
  split at h
  · cases h
  · rename_i dbs hseed
    cases h
    have hrequeue : Statement env now mine dbs (requeueJobs now dbs) := by
      refine .updateJobs fun j _ hclaimed => ⟨fun d _ _ => hmine d.orgId, ?_⟩
      exact .of_status ⟨rfl, rfl, rfl, rfl⟩ rfl (fun _ => .inr rfl) (fun _ => hclaimed.isActive) nofun
    have hstale : Statement env now mine (requeueJobs now dbs) (failStaleMemoryJobs (requeueJobs now dbs)) := by
      refine .updateJobs fun j _ _ => ⟨fun d _ _ => hmine d.orgId, ?_⟩
      exact .of_settled ⟨rfl, rfl, rfl, rfl⟩ rfl rfl (.inr rfl)
    exact ((((seedOrganization_statements hseed).tail hrequeue).tail hstale).tail
      (recoverDocuments_statement hmine)).tail (recoverDocuments_statement hmine)

-- ---------------------------------------------------------------------------
-- Calls
-- ---------------------------------------------------------------------------

/-- The organizations that a call acts for: the one it names, the one of the document that its handle
    or the next job belongs to, and every one when the store is opened. -/
def Call.ActsFor (now : Time) (db : Database) (orgId : String) : Call → Prop
  | .upsertDocument org _ | .deleteDocument org _ | .forgetMemory org _ _ _ _ => orgId = org
  | .reconcileMemories batch _ _ _ => orgId = batch.orgId
  | .claimJob => ∃ next ∈ nextJob db now .document, next.2.orgId = orgId
  | .claimMemoryJob => ∃ next ∈ nextJob db now .memory, next.2.orgId = orgId
  | .markJobStage k _ | .completeJob k _ | .completeEmbeddedJob k _ _ _
  | .completeEmbeddedJobWithMemoryExtraction k _ _ _ | .failJob k _ | .deleteEmptyDocument k =>
    ∃ d ∈ db.documents.rows, d.id = k.documentId ∧ d.orgId = orgId
  | .cacheMemoryExtraction m _ | .completeMemoryJob m | .retryMemoryJob m _ _ _ =>
    ∃ d ∈ db.documents.rows, d.id = m.documentId ∧ d.orgId = orgId
  | .openStorage => True

instance (now : Time) (db : Database) (orgId : String) (call : Call) : Decidable (call.ActsFor now db orgId) := by
  cases call <;> dsimp only [Call.ActsFor] <;> infer_instance

/-- A transaction that answers with a value. -/
theorem commit_statements {α : Type} {r : Except StorageError (α × Database)} {f : α → Answer}
    (h : ∀ a db', r = .ok (a, db') → Statements env now mine db db') :
    Statements env now mine db (commit db (r.map fun (a, db) => (f a, db))).2 := by
  cases r with
  | error e => exact .refl
  | ok p => exact h p.1 p.2 rfl

/-- A transaction that answers with nothing. -/
theorem commitUnit_statements {r : Except StorageError Database}
    (h : ∀ db', r = .ok db' → Statements env now mine db db') :
    Statements env now mine db (commit db (r.map (Answer.unit, ·))).2 := by
  cases r with
  | error e => exact .refl
  | ok db' => exact h db' rfl

section Handles

variable {s : System}

theorem Consistent.rowOf (h : Consistent env s) {k : ClaimedJob} (hk : k ∈ s.jobs) :
    RowOf s.db k.id k.documentId := fun j hj hid => (h.handleRow k hk j hj hid).2.1

theorem Consistent.memoryRowOf (h : Consistent env s) {m : ClaimedMemoryJob} (hm : m ∈ s.memoryJobs) :
    RowOf s.db m.id m.documentId := fun j hj hid => (h.memoryHandleRow m hm j hj hid).2.1

/-- A call with a handle acts for the organization of its document. -/
theorem owned_document (db : Database) (id : String) :
    Owned (fun orgId => ∃ d ∈ db.documents.rows, d.id = id ∧ d.orgId = orgId) db id :=
  fun d hd hid => ⟨d, hd, hid, rfl⟩

/-- A claim acts for the organization of the next job's document. -/
theorem owned_next {kind : JobKind} {j : Job} {d : Document} (h : nextJob db now kind = some (j, d)) :
    Owned (fun orgId => ∃ next ∈ nextJob db now kind, next.2.orgId = orgId) db d.id :=
  owned_of_mem (nextJob_some h).2.1 ⟨(j, d), h, rfl⟩

/-- Every call is a sequence of statements that act for the organizations it acts for. -/
theorem Call.statements {call : Call} (hs : Consistent env s) (hissued : call.Issued s) :
    Statements env now (call.ActsFor now s.db) s.db (call.run env now s.db).2 := by
  obtain ⟨hjob, hmemoryJob⟩ := hissued
  cases call with
  | upsertDocument orgId input => exact commit_statements fun _ _ h => upsertDocumentFor_statements rfl h
  | claimJob =>
    simp only [Call.run]
    cases hclaim : Storage.claimJob now s.db with
    | mk k db' =>
      cases k with
      | none =>
        rw [claimJob_none hclaim]
      | some k =>
        refine claimJob_statements ?_ hclaim
        unfold Storage.claimJob at hclaim
        split at hclaim
        · cases hclaim
        · rename_i hnext
          cases hclaim
          exact owned_next hnext
  | markJobStage k stage =>
    exact commitUnit_statements fun _ h =>
      markJobStage_statements (owned_document s.db k.documentId) (hs.rowOf (hjob k rfl)) h
  | completeJob k chunks =>
    exact commitUnit_statements fun _ h =>
      publishJob_statements (owned_document s.db k.documentId) (hs.rowOf (hjob k rfl)) h
  | completeEmbeddedJob k chunks modelId dimensions =>
    exact commitUnit_statements fun _ h => publishJob_statements (owned_document s.db k.documentId)
      (hs.rowOf (hjob k rfl)) (completeEmbeddedJob_publishes h).2.2
  | completeEmbeddedJobWithMemoryExtraction k chunks modelId dimensions =>
    exact commitUnit_statements fun _ h => publishJob_statements (owned_document s.db k.documentId)
      (hs.rowOf (hjob k rfl)) (completeEmbeddedJobWithMemoryExtraction_publishes h).2.2
  | failJob k error => exact failJob_statements error (owned_document s.db k.documentId) (hs.rowOf (hjob k rfl))
  | deleteEmptyDocument k =>
    simp only [Call.run]
    cases deleteEmptyDocument_cases k s.db with
    | inl hkept => rw [hkept]
    | inr hdeleted =>
      rw [hdeleted]
      exact .single (.deleteDocument (owned_document s.db k.documentId))
  | deleteDocument orgId identifier => exact deleteDocumentFor_statements identifier rfl
  | claimMemoryJob =>
    refine commit_statements fun claimed db' hclaim => ?_
    cases claimed with
    | none => rw [claimMemoryJob_none hclaim]
    | some m =>
      refine claimMemoryJob_statements ?_ hclaim
      unfold Storage.claimMemoryJob at hclaim
      split at hclaim
      · cases hclaim
      · rename_i hnext
        simp only at hclaim
        split at hclaim
        · cases hclaim
        · cases hclaim
          exact owned_next hnext
  | cacheMemoryExtraction m result =>
    exact cacheMemoryExtraction_statements result (owned_document s.db m.documentId)
      (hs.memoryRowOf (hmemoryJob m rfl))
  | completeMemoryJob m =>
    exact commitUnit_statements fun _ h =>
      completeMemoryJob_statements (owned_document s.db m.documentId) (hs.memoryRowOf (hmemoryJob m rfl)) h
  | retryMemoryJob m errorKind error retryDelay =>
    exact commitUnit_statements fun _ h =>
      retryMemoryJob_statements (owned_document s.db m.documentId) (hs.memoryRowOf (hmemoryJob m rfl))
        (fun j hj hid => (hs.memoryHandleRow m (hmemoryJob m rfl) j hj hid).1) h
  | reconcileMemories batch expectedRevision completion proposals =>
    exact commit_statements fun _ _ h => reconcileMemoriesFor_statements rfl h
  | forgetMemory orgId id content containerTag reason =>
    exact commit_statements fun _ _ h => forgetMemoryFor_statements rfl h
  | openStorage => exact commit_statements fun _ _ h => openStorage_statements (fun _ => trivial) h

end Handles

end Storage
