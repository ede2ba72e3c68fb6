-- SUMMARY: Reconciling a batch with every constraint of the schema enforced, and a random source that may fail.
import Supermemory.Storage.Deduplication
import Supermemory.Storage.Legacy

/-!
# Constraints

The engine checks the foreign keys and the `CHECK`s of the memory tables after every
statement. `reconcileMemoriesFor` leaves most of them out. Here it is written again with all
of them, and with a random source that may fail. On a store that meets the constraints, the
two agree as long as identifiers are generated, none of them is taken, and no version
becomes too large.
-/

namespace Storage

-- ---------------------------------------------------------------------------
-- The schema
-- ---------------------------------------------------------------------------

/-- The largest 64-bit integer. Adding one to it comes to a negative number. -/
def maxVersion : Nat := 2 ^ 63 - 1

/-- The constraints of `memories`: two foreign keys, and `CHECK (version > 0)` of a 64-bit integer. -/
def Memory.Allowed (db : Database) (m : Memory) : Prop :=
  db.hasOrganization m.orgId ∧ (∀ id ∈ m.parentMemoryId, db.hasMemory id) ∧ 0 < m.version ∧ m.version ≤ maxVersion

def MemorySource.Allowed (db : Database) (s : MemorySource) : Prop := db.hasMemory s.memoryId ∧ db.hasDocument s.documentId

def MemoryRelation.Allowed (db : Database) (r : MemoryRelation) : Prop :=
  db.hasMemory r.parentId ∧ db.hasMemory r.childId ∧
    (r.relation = "updates" ∨ r.relation = "extends" ∨ r.relation = "derives")

def MemoryEmbedding.Allowed (db : Database) (e : MemoryEmbedding) : Prop := db.hasMemory e.memoryId ∧ 0 < e.dimensions

instance (db : Database) : DecidablePred (Memory.Allowed db) := fun _ => inferInstanceAs (Decidable (_ ∧ _))

instance (db : Database) : DecidablePred (MemorySource.Allowed db) := fun _ => inferInstanceAs (Decidable (_ ∧ _))

instance (db : Database) : DecidablePred (MemoryRelation.Allowed db) := fun _ => inferInstanceAs (Decidable (_ ∧ _))

instance (db : Database) : DecidablePred (MemoryEmbedding.Allowed db) := fun _ => inferInstanceAs (Decidable (_ ∧ _))

/-- What the engine keeps true of documents, memories, and what refers to them. -/
structure Constraints (db : Database) : Prop where
  documents : ∀ d ∈ db.documents.rows, db.hasOrganization d.orgId
  memories : ∀ m ∈ db.memories.rows, m.Allowed db
  sources : ∀ s ∈ db.memorySources.rows, s.Allowed db
  relations : ∀ r ∈ db.memoryRelations.rows, r.Allowed db
  embeddings : ∀ e ∈ db.memoryEmbeddings.rows, e.Allowed db

instance (db : Database) : Decidable (Constraints db) :=
  decidable_of_iff
    ((∀ d ∈ db.documents.rows, db.hasOrganization d.orgId) ∧ (∀ m ∈ db.memories.rows, m.Allowed db) ∧
      (∀ s ∈ db.memorySources.rows, s.Allowed db) ∧ (∀ r ∈ db.memoryRelations.rows, r.Allowed db) ∧
      ∀ e ∈ db.memoryEmbeddings.rows, e.Allowed db)
    ⟨fun ⟨h₁, h₂, h₃, h₄, h₅⟩ => ⟨h₁, h₂, h₃, h₄, h₅⟩, fun ⟨h₁, h₂, h₃, h₄, h₅⟩ => ⟨h₁, h₂, h₃, h₄, h₅⟩⟩

-- ---------------------------------------------------------------------------
-- Reconciliation
-- ---------------------------------------------------------------------------

/-- Why a reconciliation fails: an error that the code raises by itself, a constraint that a statement
    violates, the random source, or an identifier that it answers although a memory has it. -/
inductive ReconciliationError where
  | storage (error : StorageError)
  | constraint
  | random
  | taken
  deriving DecidableEq

namespace Enforced

/-- A statement is undone if a constraint is violated after it. -/
def enforce (db : Database) : Except ReconciliationError Database :=
  if Constraints db then .ok db else .error .constraint

def insertMemory (db : Database) (m : Memory) : Except ReconciliationError Database :=
  match db.memories.insert m with
  | none => .error .taken
  | some memories => enforce { db with memories }

def insertSource (db : Database) (s : MemorySource) : Except ReconciliationError Database :=
  match db.memorySources.insert s with
  | none => .error .constraint
  | some memorySources => enforce { db with memorySources }

def linkParent (now : Time) (childId : String) (db : Database) (parent : ResolvedParent) :
    Except ReconciliationError Database := do
  let db ← enforce (addRelation db parent.id childId parent.relation)
  if parent.relation = "updates" then enforce (retireMemory now db parent.id) else .ok db

def linkParents (now : Time) (childId : String) : List ResolvedParent → Database → Except ReconciliationError Database
  | [], db => .ok db
  | parent :: rest, db => do
    let db ← linkParent now childId db parent
    linkParents now childId rest db

def insertMemoryEmbedding (db : Database) (memoryId modelId : String) (dimensions : Nat) (vector : List F32) :
    Except ReconciliationError Database :=
  match Storage.insertMemoryEmbedding db memoryId modelId dimensions vector with
  | .error _ => .error .constraint
  | .ok db => enforce db

/-- One turn of the reconciliation loop. The random source answers where `random` says so. -/
def reconcileProposal (env : Env) (random : Nat → Bool) (now : Time) (batch : Batch) (s : Reconciliation)
    (proposal : MemoryProposal) : Except ReconciliationError Reconciliation :=
  let normalizedContent := normalizedMemory env proposal.content
  match s.exactMemories.lookup normalizedContent with
  | some existingId => do
    let db ← enforce (addSource s.db existingId batch.documentId)
    .ok { s with
      db
      temporaryIds := (proposal.temporaryId, existingId) :: s.temporaryIds
      recordIds := s.recordIds ++ [existingId] }
  | none =>
    let parents := resolveMemoryParents s.db batch.orgId batch.containerTag proposal.parents s.temporaryIds
    if random s.db.idsDrawn = false then .error .random
    else do
      let id := "mem_" ++ env.generateId s.db.idsDrawn
      let db ← insertMemory { s.db with idsDrawn := s.db.idsDrawn + 1 } (newMemory env now batch proposal parents id)
      let db ← insertSource db { memoryId := id, documentId := batch.documentId }
      let db ← linkParents now id parents db
      let db ← insertMemoryEmbedding db id batch.modelId batch.dimensions proposal.vector
      .ok
        { db
          temporaryIds := (proposal.temporaryId, id) :: s.temporaryIds
          exactMemories := (normalizedContent, id) :: s.exactMemories
          recordIds := s.recordIds ++ [id] }

def reconcileProposals (env : Env) (random : Nat → Bool) (now : Time) (batch : Batch) :
    List MemoryProposal → Reconciliation → Except ReconciliationError Reconciliation
  | [], s => .ok s
  | proposal :: rest, s => do
    let s ← reconcileProposal env random now batch s proposal
    reconcileProposals env random now batch rest s

/-- `reconcileMemoriesFor` with every constraint. -/
def reconcileMemoriesFor (env : Env) (random : Nat → Bool) (now : Time) (batch : Batch) (expectedRevision : Option Nat)
    (completionJobId : Option String) (proposals : List MemoryProposal) (db : Database) :
    Except ReconciliationError (List MemoryRecord × Database) :=
  match validateProposals env batch.dimensions proposals with
  | .error e => .error (.storage e)
  | .ok () =>
    match (db.documents.find batch.documentId).filter (·.orgId = batch.orgId) with
    | none => .error (.storage (.unknownMemorySource batch.documentId))
    | some source =>
      if ∃ expected ∈ expectedRevision, expected ≠ source.revision then
        .error (.storage (.staleRevision batch.documentId (expectedRevision.getD 0) (some source.revision)))
      else
        match reconcileProposals env random now batch proposals (reconciliationStart env batch db) with
        | .error e => .error e
        | .ok s =>
          match readRecords s.db s.recordIds with
          | .error e => .error (.storage e)
          | .ok records =>
            match completionJobId with
            | none => .ok (records, s.db)
            | some jobId =>
              match finishReconciliation s.db jobId batch.documentId source.revision with
              | .error e => .error (.storage e)
              | .ok db =>
                match enforce db with
                | .error e => .error e
                | .ok db => .ok (records, db)

end Enforced

variable {env : Env} {now : Time} {batch : Batch} {db db' db'' : Database}

-- ---------------------------------------------------------------------------
-- Statements
-- ---------------------------------------------------------------------------

/-- What is referred to stays, and every row is one that was there, up to what no constraint is about, or it is
    allowed. -/
structure Expands (db db' : Database) : Prop where
  organizations : db'.organizations = db.organizations
  documents : db'.documents.rows.map (fun d => (d.id, d.orgId)) = db.documents.rows.map fun d => (d.id, d.orgId)
  kept : ∀ id, db.hasMemory id → db'.hasMemory id
  memories : ∀ m' ∈ db'.memories, m'.Allowed db' ∨
    ∃ m ∈ db.memories, m.orgId = m'.orgId ∧ m.parentMemoryId = m'.parentMemoryId ∧ m.version = m'.version
  sources : ∀ s ∈ db'.memorySources, s.Allowed db' ∨ s ∈ db.memorySources
  relations : ∀ r ∈ db'.memoryRelations, r.Allowed db' ∨ r ∈ db.memoryRelations
  embeddings : ∀ e' ∈ db'.memoryEmbeddings, e'.Allowed db' ∨
    ∃ e ∈ db.memoryEmbeddings, e.memoryId = e'.memoryId ∧ e.dimensions = e'.dimensions

namespace Expands

theorem hasOrganization (h : Expands db db') {id : String} (hid : db.hasOrganization id) : db'.hasOrganization id := by
  unfold Database.hasOrganization
  rw [h.organizations]
  exact hid

theorem hasDocument (h : Expands db db') {id : String} (hid : db.hasDocument id) : db'.hasDocument id := by
  obtain ⟨d, hd, rfl⟩ := hid
  have hmem : (d.id, d.orgId) ∈ db'.documents.rows.map fun d => (d.id, d.orgId) := by
    rw [h.documents]
    exact List.mem_map_of_mem hd
  obtain ⟨d', hd', heq⟩ := List.mem_map.mp hmem
  exact ⟨d', hd', congrArg Prod.fst heq⟩

theorem memory_allowed (h : Expands db db') {m m' : Memory} (hm : m.Allowed db)
    (hsame : m.orgId = m'.orgId ∧ m.parentMemoryId = m'.parentMemoryId ∧ m.version = m'.version) : m'.Allowed db' := by
  obtain ⟨horg, hparent, hversion⟩ := hsame
  obtain ⟨horganization, hparents, hrange⟩ := hm
  rw [horg] at horganization
  rw [hparent] at hparents
  rw [hversion] at hrange
  exact ⟨h.hasOrganization horganization, fun id hid => h.kept id (hparents id hid), hrange⟩

theorem source_allowed (h : Expands db db') {s : MemorySource} (hs : s.Allowed db) : s.Allowed db' :=
  ⟨h.kept _ hs.1, h.hasDocument hs.2⟩

theorem relation_allowed (h : Expands db db') {r : MemoryRelation} (hr : r.Allowed db) : r.Allowed db' :=
  ⟨h.kept _ hr.1, h.kept _ hr.2.1, hr.2.2⟩

theorem embedding_allowed (h : Expands db db') {e e' : MemoryEmbedding} (he : e.Allowed db)
    (hsame : e.memoryId = e'.memoryId ∧ e.dimensions = e'.dimensions) : e'.Allowed db' :=
  ⟨h.kept _ (hsame.1 ▸ he.1), hsame.2 ▸ he.2⟩

/-- No statement that expands a store violates a constraint. -/
theorem constraints (h : Expands db db') (hdb : Constraints db) : Constraints db' where
  documents := by
    intro d' hd'
    have hmem : (d'.id, d'.orgId) ∈ db.documents.rows.map fun d => (d.id, d.orgId) := by
      rw [← h.documents]
      exact List.mem_map_of_mem hd'
    obtain ⟨d, hd, heq⟩ := List.mem_map.mp hmem
    have horg : d.orgId = d'.orgId := congrArg Prod.snd heq
    exact horg ▸ h.hasOrganization (hdb.documents d hd)
  memories m' hm' := (h.memories m' hm').elim id fun ⟨m, hm, hsame⟩ => h.memory_allowed (hdb.memories m hm) hsame
  sources s hs := (h.sources s hs).elim id fun hold => h.source_allowed (hdb.sources s hold)
  relations r hr := (h.relations r hr).elim id fun hold => h.relation_allowed (hdb.relations r hold)
  embeddings e' he' :=
    (h.embeddings e' he').elim id fun ⟨e, he, hsame⟩ => h.embedding_allowed (hdb.embeddings e he) hsame

theorem trans (h : Expands db db') (h' : Expands db' db'') : Expands db db'' where
  organizations := h'.organizations.trans h.organizations
  documents := h'.documents.trans h.documents
  kept id hid := h'.kept id (h.kept id hid)
  memories := by
    intro m'' hm''
    cases h'.memories m'' hm'' with
    | inl hallowed => exact .inl hallowed
    | inr hmiddle =>
      obtain ⟨m', hm', hsame⟩ := hmiddle
      cases h.memories m' hm' with
      | inl hallowed => exact .inl (h'.memory_allowed hallowed hsame)
      | inr hold =>
        obtain ⟨m, hm, horg, hparent, hversion⟩ := hold
        exact .inr ⟨m, hm, horg.trans hsame.1, hparent.trans hsame.2.1, hversion.trans hsame.2.2⟩
  sources s hs := (h'.sources s hs).elim .inl fun hmiddle => (h.sources s hmiddle).imp_left h'.source_allowed
  relations r hr := (h'.relations r hr).elim .inl fun hmiddle => (h.relations r hmiddle).imp_left h'.relation_allowed
  embeddings := by
    intro e'' he''
    cases h'.embeddings e'' he'' with
    | inl hallowed => exact .inl hallowed
    | inr hmiddle =>
      obtain ⟨e', he', hsame⟩ := hmiddle
      cases h.embeddings e' he' with
      | inl hallowed => exact .inl (h'.embedding_allowed hallowed hsame)
      | inr hold =>
        obtain ⟨e, he, hmemory, hdimensions⟩ := hold
        exact .inr ⟨e, he, hmemory.trans hsame.1, hdimensions.trans hsame.2⟩

theorem refl (db : Database) : Expands db db where
  organizations := rfl
  documents := rfl
  kept _ hid := hid
  memories m hm := .inr ⟨m, hm, rfl, rfl, rfl⟩
  sources _ hs := .inr hs
  relations _ hr := .inr hr
  embeddings e he := .inr ⟨e, he, rfl, rfl⟩

/-- A statement on a store that expands is not undone. -/
theorem enforced (h : Expands db db') (hdb : Constraints db) : Enforced.enforce db' = .ok db' :=
  if_pos (h.constraints hdb)

/-- The statements on other tables. -/
theorem elsewhere (horganizations : db'.organizations = db.organizations) (hdocuments : db'.documents = db.documents)
    (hmemories : db'.memories = db.memories) (hsources : ∀ s ∈ db'.memorySources, s.Allowed db' ∨ s ∈ db.memorySources)
    (hrelations : ∀ r ∈ db'.memoryRelations, r.Allowed db' ∨ r ∈ db.memoryRelations)
    (hembeddings : ∀ e ∈ db'.memoryEmbeddings, e.Allowed db' ∨ e ∈ db.memoryEmbeddings) : Expands db db' where
  organizations := horganizations
  documents := by rw [hdocuments]
  kept id hid := by
    unfold Database.hasMemory
    rw [hmemories]
    exact hid
  memories m hm := .inr ⟨m, hmemories ▸ hm, rfl, rfl, rfl⟩
  sources := hsources
  relations := hrelations
  embeddings e he := (hembeddings e he).imp_right fun hold => ⟨e, hold, rfl, rfl⟩

end Expands

theorem Database.hasMemory.mem_insert {m : Memory} {memories : Table Memory Memory.id}
    (h : db.memories.insert m = some memories) {id : String} :
    Database.hasMemory { db with memories } id ↔ db.hasMemory id ∨ m.id = id := by
  constructor
  · rintro ⟨m', hm', rfl⟩
    cases (Table.mem_insert h).mp hm' with
    | inl hold => exact .inl ⟨m', hold, rfl⟩
    | inr hnew => exact .inr (congrArg Memory.id hnew.symm)
  · intro hid
    cases hid with
    | inl hold =>
      obtain ⟨m', hm', rfl⟩ := hold
      exact ⟨m', (Table.mem_insert h).mpr (.inl hm'), rfl⟩
    | inr hnew => exact ⟨m, (Table.mem_insert h).mpr (.inr rfl), hnew⟩

theorem insertMemory_expands {m : Memory} {memories : Table Memory Memory.id} (h : db.memories.insert m = some memories)
    (hallowed : m.Allowed db) : Expands db { db with memories } where
  organizations := rfl
  documents := rfl
  kept id hid := (Database.hasMemory.mem_insert h).mpr (.inl hid)
  memories m' hm' := by
    cases (Table.mem_insert h).mp hm' with
    | inl hold => exact .inr ⟨m', hold, rfl, rfl, rfl⟩
    | inr hnew =>
      cases hnew
      obtain ⟨horganization, hparents, hrange⟩ := hallowed
      exact .inl ⟨horganization, fun id hid => (Database.hasMemory.mem_insert h).mpr (.inl (hparents id hid)), hrange⟩
  sources _ hs := .inr hs
  relations _ hr := .inr hr
  embeddings e he := .inr ⟨e, he, rfl, rfl⟩

theorem insertSource_expands {r : MemorySource} {memorySources : Table MemorySource id}
    (h : db.memorySources.insert r = some memorySources) (hallowed : r.Allowed db) : Expands db { db with memorySources } := by
  refine Expands.elsewhere rfl rfl rfl ?_ ?_ ?_
  · intro s hs
    cases (Table.mem_insert h).mp hs with
    | inl hold => exact .inr hold
    | inr hnew => exact .inl (hnew ▸ hallowed)
  · exact fun _ hr => .inr hr
  · exact fun _ he => .inr he

theorem addSource_expands {memoryId documentId : String} (hmemory : db.hasMemory memoryId)
    (hdocument : db.hasDocument documentId) : Expands db (addSource db memoryId documentId) := by
  refine Expands.elsewhere rfl rfl rfl ?_ ?_ ?_
  · intro s hs
    cases Table.mem_insertOrIgnore.mp hs with
    | inl hold => exact .inr hold
    | inr hnew =>
      cases hnew
      exact .inl ⟨hmemory, hdocument⟩
  · exact fun _ hr => .inr hr
  · exact fun _ he => .inr he

theorem addRelation_expands {parentId childId relation : String} (hparent : db.hasMemory parentId)
    (hchild : db.hasMemory childId) : Expands db (addRelation db parentId childId relation) := by
  unfold addRelation
  split
  · rename_i hrelation
    refine Expands.elsewhere rfl rfl rfl ?_ ?_ ?_
    · exact fun _ hs => .inr hs
    · intro r hr
      cases Table.mem_insertOrIgnore.mp hr with
      | inl hold => exact .inr hold
      | inr hnew =>
        cases hnew
        exact .inl ⟨hparent, hchild, hrelation⟩
    · exact fun _ he => .inr he
  · exact .refl db

theorem mem_retireMemory {id : String} {m' : Memory} :
    m' ∈ (retireMemory now db id).memories ↔ ∃ m ∈ db.memories, m' = if m.id = id then retired now m else m := by
  have hrows : (retireMemory now db id).memories =
      db.memories.update (fun m => m.id = id) (retired now) (retired_id now) := rfl
  rw [hrows]
  exact Table.mem_update

theorem mem_retireMemory_embeddings {id : String} {e' : MemoryEmbedding} :
    e' ∈ (retireMemory now db id).memoryEmbeddings ↔
      ∃ e ∈ db.memoryEmbeddings, e' = if e.memoryId = id then deactivated e else e := by
  have hrows : (retireMemory now db id).memoryEmbeddings =
      db.memoryEmbeddings.update (fun e => e.memoryId = id) deactivated (fun _ => rfl) := rfl
  rw [hrows]
  exact Table.mem_update

theorem retireMemory_expands (now : Time) (db : Database) (id : String) : Expands db (retireMemory now db id) where
  organizations := rfl
  documents := rfl
  kept := by
    rintro _ ⟨m, hm, rfl⟩
    refine ⟨_, mem_retireMemory.mpr ⟨m, hm, rfl⟩, ?_⟩
    split <;> rfl
  memories m' hm' := by
    obtain ⟨m, hm, rfl⟩ := mem_retireMemory.mp hm'
    refine .inr ⟨m, hm, ?_⟩
    split <;> exact ⟨rfl, rfl, rfl⟩
  sources _ hs := .inr hs
  relations _ hr := .inr hr
  embeddings e' he' := by
    obtain ⟨e, he, rfl⟩ := mem_retireMemory_embeddings.mp he'
    refine .inr ⟨e, he, ?_⟩
    split <;> exact ⟨rfl, rfl⟩

theorem insertMemoryEmbedding_expands {memoryId modelId : String} {dimensions : Nat} {vector : List F32}
    (hmemory : db.hasMemory memoryId) (hdimensions : dimensions ≠ 0)
    (h : insertMemoryEmbedding db memoryId modelId dimensions vector = .ok db') : Expands db db' := by
  obtain ⟨memoryEmbeddings, rfl, hinsert⟩ := insertMemoryEmbedding_ok h
  refine Expands.elsewhere rfl rfl rfl ?_ ?_ ?_
  · exact fun _ hs => .inr hs
  · exact fun _ hr => .inr hr
  · intro e he
    cases (Table.mem_insert hinsert).mp he with
    | inl hold => exact .inr hold
    | inr hnew =>
      cases hnew
      exact .inl ⟨hmemory, Nat.pos_of_ne_zero hdimensions⟩

theorem finishReconciliation_expands {jobId documentId : String} {revision : Nat}
    (h : finishReconciliation db jobId documentId revision = .ok db') : Expands db db' where
  organizations := by rw [(finishReconciliation_ok h).2]; rfl
  documents := by
    rw [(finishReconciliation_ok h).2]
    simp only [Database.setDocumentStatus, finishedReconciliation, Table.update, List.map_map]
    apply List.map_congr_left
    intro d _
    simp only [Function.comp_apply]
    split <;> rfl
  kept := by rw [(finishReconciliation_ok h).2]; exact fun _ hid => hid
  memories := by rw [(finishReconciliation_ok h).2]; exact fun m hm => .inr ⟨m, hm, rfl, rfl, rfl⟩
  sources := by rw [(finishReconciliation_ok h).2]; exact fun _ hs => .inr hs
  relations := by rw [(finishReconciliation_ok h).2]; exact fun _ hr => .inr hr
  embeddings := by rw [(finishReconciliation_ok h).2]; exact fun e he => .inr ⟨e, he, rfl, rfl⟩

/-! ## Inserted rows -/

namespace Enforced

theorem insertMemory_fresh {m : Memory} (hdb : Constraints db) (hallowed : m.Allowed db) (hfresh : ¬ db.hasMemory m.id) :
    ∃ memories, db.memories.insert m = some memories ∧ insertMemory db m = .ok { db with memories } ∧
      Expands db { db with memories } := by
  obtain ⟨memories, hinsert⟩ := Table.insert_isSome (r := m) fun m' hm' heq => hfresh ⟨m', hm', heq⟩
  have hexpands := insertMemory_expands hinsert hallowed
  refine ⟨memories, hinsert, ?_, hexpands⟩
  unfold insertMemory
  simp only [hinsert, hexpands.enforced hdb]

theorem insertMemory_taken {m : Memory} (htaken : db.hasMemory m.id) : insertMemory db m = .error .taken := by
  obtain ⟨m', hm', hid⟩ := htaken
  unfold insertMemory
  simp only [Table.insert_taken hm' hid]

theorem insertMemory_refused {m : Memory} (hfresh : ¬ db.hasMemory m.id)
    (hrefused : ∀ db : Database, ¬ m.Allowed db) : insertMemory db m = .error .constraint := by
  obtain ⟨memories, hinsert⟩ := Table.insert_isSome (r := m) fun m' hm' heq => hfresh ⟨m', hm', heq⟩
  unfold insertMemory
  simp only [hinsert]
  apply if_neg
  intro hconstraints
  exact hrefused _ (hconstraints.memories m ((Table.mem_insert hinsert).mpr (.inr rfl)))

theorem insertSource_fresh {r : MemorySource} (hdb : Constraints db) (hallowed : r.Allowed db)
    (hfresh : ∀ r' ∈ db.memorySources, r' ≠ r) :
    ∃ memorySources, db.memorySources.insert r = some memorySources ∧ insertSource db r = .ok { db with memorySources } ∧
      Expands db { db with memorySources } := by
  obtain ⟨memorySources, hinsert⟩ := Table.insert_isSome hfresh
  have hexpands := insertSource_expands hinsert hallowed
  refine ⟨memorySources, hinsert, ?_, hexpands⟩
  unfold insertSource
  simp only [hinsert, hexpands.enforced hdb]

theorem insertMemoryEmbedding_fresh {memoryId : String} {dimensions : Nat} (hdb : Constraints db)
    (hmemory : db.hasMemory memoryId) (hdimensions : dimensions ≠ 0)
    (hfresh : ∀ e ∈ db.memoryEmbeddings, e.memoryId ≠ memoryId) (modelId : String) (vector : List F32) :
    ∃ db', Storage.insertMemoryEmbedding db memoryId modelId dimensions vector = .ok db' ∧
      insertMemoryEmbedding db memoryId modelId dimensions vector = .ok db' ∧ Expands db db' := by
  obtain ⟨memoryEmbeddings, hinsert⟩ :=
    Table.insert_isSome (r := (⟨memoryId, modelId, dimensions, vectorBytes vector, true⟩ : MemoryEmbedding)) hfresh
  have hembed : Storage.insertMemoryEmbedding db memoryId modelId dimensions vector = .ok { db with memoryEmbeddings } := by
    unfold Storage.insertMemoryEmbedding
    rw [if_neg hdimensions, hinsert]
  have hexpands := insertMemoryEmbedding_expands hmemory hdimensions hembed
  refine ⟨_, hembed, ?_, hexpands⟩
  unfold insertMemoryEmbedding
  simp only [hembed, hexpands.enforced hdb]

end Enforced

-- ---------------------------------------------------------------------------
-- Relations
-- ---------------------------------------------------------------------------

variable {childId : String}

theorem linkParent_enforced (now : Time) {parent : ResolvedParent} (hdb : Constraints db) (hchild : db.hasMemory childId)
    (hparent : db.hasMemory parent.id) :
    Enforced.linkParent now childId db parent = .ok (linkParent now childId db parent) ∧
      Expands db (linkParent now childId db parent) := by
  have hrelation : Expands db (addRelation db parent.id childId parent.relation) := addRelation_expands hparent hchild
  have hretire : Expands (addRelation db parent.id childId parent.relation)
      (retireMemory now (addRelation db parent.id childId parent.relation) parent.id) := retireMemory_expands now _ _
  unfold Enforced.linkParent linkParent
  rw [hrelation.enforced hdb]
  simp only [bind, Except.bind]
  split
  · exact ⟨hretire.enforced (hrelation.constraints hdb), hrelation.trans hretire⟩
  · exact ⟨rfl, hrelation⟩

theorem linkParents_enforced (now : Time) {parents : List ResolvedParent} (hdb : Constraints db)
    (hchild : db.hasMemory childId) (hparents : ∀ p ∈ parents, db.hasMemory p.id) :
    Enforced.linkParents now childId parents db = .ok (parents.foldl (linkParent now childId) db) ∧
      Expands db (parents.foldl (linkParent now childId) db) := by
  induction parents generalizing db with
  | nil => exact ⟨rfl, .refl db⟩
  | cons parent rest ih =>
    obtain ⟨hparent, hrest⟩ := List.forall_mem_cons.mp hparents
    obtain ⟨hfirst, hexpands⟩ := linkParent_enforced now hdb hchild hparent
    obtain ⟨hloop, hexpands'⟩ := ih (hexpands.constraints hdb) (hexpands.kept _ hchild) fun p hp => hexpands.kept _ (hrest p hp)
    rw [Enforced.linkParents, hfirst, List.foldl_cons]
    exact ⟨hloop, hexpands.trans hexpands'⟩

theorem linkParents_unembedded {parents : List ResolvedParent} {memoryId : String}
    (h : ∀ e ∈ db.memoryEmbeddings, e.memoryId ≠ memoryId) :
    ∀ e ∈ (parents.foldl (linkParent now childId) db).memoryEmbeddings, e.memoryId ≠ memoryId := by
  intro e he
  rw [linkParents_embeddings] at he
  obtain ⟨e₀, he₀, hkey, _⟩ := Table.of_mem_update he
  exact hkey ▸ h e₀ he₀

-- ---------------------------------------------------------------------------
-- Proposals
-- ---------------------------------------------------------------------------

/-- Before a turn of the loop, the constraints hold, and what the batch and the loop name is there. -/
structure Ready (batch : Batch) (s : Reconciliation) : Prop where
  constraints : Constraints s.db
  organization : s.db.hasOrganization batch.orgId
  document : s.db.hasDocument batch.documentId
  known : ∀ content id, s.exactMemories.lookup content = some id → s.db.hasMemory id

section Turn

variable {random : Nat → Bool} {proposal : MemoryProposal} {s : Reconciliation}

/-- The identifier that the random source answers next. -/
def nextId (env : Env) (s : Reconciliation) : String := "mem_" ++ env.generateId s.db.idsDrawn

/-- The memory that becomes of a proposal. -/
def nextMemory (env : Env) (now : Time) (batch : Batch) (s : Reconciliation) (proposal : MemoryProposal) : Memory :=
  newMemory env now batch proposal
    (resolveMemoryParents s.db batch.orgId batch.containerTag proposal.parents s.temporaryIds) (nextId env s)

theorem resolved_hasMemory {p : ResolvedParent}
    (h : p ∈ resolveMemoryParents s.db batch.orgId batch.containerTag proposal.parents s.temporaryIds) :
    s.db.hasMemory p.id := by
  obtain ⟨m, hm, hread, _⟩ := mem_resolveMemoryParents h
  exact ⟨m, hm, hread⟩

theorem Ready.matched (h : Ready batch s) {id : String}
    (hknown : s.exactMemories.lookup (normalizedMemory env proposal.content) = some id) :
    Enforced.reconcileProposal env random now batch s proposal = .ok (matched batch proposal id s) ∧
      reconcileProposal env now batch s proposal = .ok (matched batch proposal id s) ∧
      Ready batch (Storage.matched batch proposal id s) := by
  have hexpands : Expands s.db (addSource s.db id batch.documentId) := addSource_expands (h.known _ _ hknown) h.document
  refine ⟨?_, ?_, hexpands.constraints h.constraints, h.organization, h.document, h.known⟩
  · unfold Enforced.reconcileProposal
    simp only [hknown, hexpands.enforced h.constraints]
    rfl
  · unfold reconcileProposal
    simp only [hknown]
    rfl

theorem Ready.next_allowed (h : Ready batch s) (hversion : (nextMemory env now batch s proposal).version ≤ maxVersion) :
    (nextMemory env now batch s proposal).Allowed s.db := by
  refine ⟨h.organization, ?_, ?_, hversion⟩
  · intro id hid
    obtain ⟨p, hp, rfl⟩ := Option.map_eq_some_iff.mp hid
    exact resolved_hasMemory (List.mem_of_head? hp)
  · unfold nextMemory newMemory
    simp only
    cases (resolveMemoryParents s.db batch.orgId batch.containerTag proposal.parents s.temporaryIds).head? with
    | none => exact Nat.one_pos
    | some p => exact Nat.succ_pos p.version

/-- A new memory that is allowed is inserted with everything that belongs to it. -/
theorem Ready.creates (h : Ready batch s) (hdimensions : batch.dimensions ≠ 0)
    (hunknown : s.exactMemories.lookup (normalizedMemory env proposal.content) = none)
    (hanswers : random s.db.idsDrawn = true) (hfresh : ¬ s.db.hasMemory (nextId env s))
    (hversion : (nextMemory env now batch s proposal).version ≤ maxVersion) :
    ∃ u, Enforced.reconcileProposal env random now batch s proposal = .ok u ∧
      reconcileProposal env now batch s proposal = .ok u ∧ Ready batch u := by
  have hdrawn : Expands s.db { s.db with idsDrawn := s.db.idsDrawn + 1 } :=
    .elsewhere rfl rfl rfl (fun _ hs => .inr hs) (fun _ hr => .inr hr) fun _ he => .inr he
  have hnext : (nextMemory env now batch s proposal).Allowed { s.db with idsDrawn := s.db.idsDrawn + 1 } :=
    h.next_allowed hversion
  have hparents : ∀ p ∈ resolveMemoryParents s.db batch.orgId batch.containerTag proposal.parents s.temporaryIds,
      s.db.hasMemory p.id := fun _ hp => resolved_hasMemory hp
  -- the memory
  obtain ⟨memories, hinsert, hmemoryOk, hmemory⟩ := Enforced.insertMemory_fresh (hdrawn.constraints h.constraints) hnext hfresh
  have hchild : Database.hasMemory { s.db with memories, idsDrawn := s.db.idsDrawn + 1 } (nextId env s) :=
    (Database.hasMemory.mem_insert hinsert).mpr (.inr rfl)
  -- its source
  have hunlinked : ∀ r ∈ s.db.memorySources, r ≠ ⟨nextId env s, batch.documentId⟩ := by
    intro r hr heq
    have howner := (h.constraints.sources r hr).1
    rw [heq] at howner
    exact hfresh howner
  obtain ⟨memorySources, hsource, hsourceOk, hsourced⟩ := Enforced.insertSource_fresh
    ((hdrawn.trans hmemory).constraints h.constraints) ⟨hchild, (hdrawn.trans hmemory).hasDocument h.document⟩ hunlinked
  have hrows := (hdrawn.trans hmemory).trans hsourced
  -- its relations
  obtain ⟨hlinksOk, hlinks⟩ := linkParents_enforced now (hrows.constraints h.constraints) (hsourced.kept _ hchild)
    fun p hp => hrows.kept _ (hparents p hp)
  -- its vector
  have hmemoryKept := hlinks.kept _ (hsourced.kept _ hchild)
  have hunembedded : ∀ e ∈ s.db.memoryEmbeddings, e.memoryId ≠ nextId env s :=
    fun e he heq => hfresh (heq ▸ (h.constraints.embeddings e he).1)
  obtain ⟨db', hembed, hembedOk, hembedded⟩ := Enforced.insertMemoryEmbedding_fresh
    ((hrows.trans hlinks).constraints h.constraints) hmemoryKept hdimensions (linkParents_unembedded hunembedded)
    batch.modelId proposal.vector
  have hall := (hrows.trans hlinks).trans hembedded
  unfold nextMemory nextId at *
  unfold Enforced.reconcileProposal reconcileProposal
  simp only [hunknown, hanswers, hmemoryOk, hinsert, hsource, hsourceOk, hlinksOk, hembed, hembedOk, bind, Except.bind]
  refine ⟨_, rfl, rfl, hall.constraints h.constraints, hall.hasOrganization h.organization, hall.hasDocument h.document, ?_⟩
  intro content known hknown
  rw [List.lookup_cons] at hknown
  split at hknown
  · cases hknown
    exact hembedded.kept _ hmemoryKept
  · exact hall.kept _ (h.known content known hknown)

/-- A turn ends where its memory is not inserted. -/
theorem Enforced.reconcileProposal_refused
    (hunknown : s.exactMemories.lookup (normalizedMemory env proposal.content) = none)
    (hanswers : random s.db.idsDrawn = true) {error : ReconciliationError}
    (hrefused : insertMemory { s.db with idsDrawn := s.db.idsDrawn + 1 } (nextMemory env now batch s proposal) = .error error) :
    reconcileProposal env random now batch s proposal = .error error := by
  unfold nextMemory nextId at hrefused
  unfold reconcileProposal
  simp only [hunknown, hanswers, hrefused]
  rfl

/-- How a turn goes: as it does without the constraints, unless the random source fails, or answers an identifier
    that is taken, or the version of the new memory is too large. -/
inductive Ready.Turn (env : Env) (random : Nat → Bool) (now : Time) (batch : Batch) (s : Reconciliation)
    (proposal : MemoryProposal) : Prop where
  | repeats (id : String) (hknown : s.exactMemories.lookup (normalizedMemory env proposal.content) = some id)
      (hturn : Enforced.reconcileProposal env random now batch s proposal = .ok (Storage.matched batch proposal id s))
      (hplain : reconcileProposal env now batch s proposal = .ok (Storage.matched batch proposal id s))
      (hready : Ready batch (Storage.matched batch proposal id s))
  | creates (u : Reconciliation) (hunknown : s.exactMemories.lookup (normalizedMemory env proposal.content) = none)
      (hanswers : random s.db.idsDrawn = true) (hfresh : ¬ s.db.hasMemory (nextId env s))
      (hversion : (nextMemory env now batch s proposal).version ≤ maxVersion)
      (hturn : Enforced.reconcileProposal env random now batch s proposal = .ok u)
      (hplain : reconcileProposal env now batch s proposal = .ok u) (hready : Ready batch u)
  | unanswered (hunknown : s.exactMemories.lookup (normalizedMemory env proposal.content) = none)
      (hrandom : random s.db.idsDrawn = false)
      (hturn : Enforced.reconcileProposal env random now batch s proposal = .error .random)
  | taken (hunknown : s.exactMemories.lookup (normalizedMemory env proposal.content) = none)
      (hanswers : random s.db.idsDrawn = true) (htaken : s.db.hasMemory (nextId env s))
      (hturn : Enforced.reconcileProposal env random now batch s proposal = .error .taken)
  | exhausted (hunknown : s.exactMemories.lookup (normalizedMemory env proposal.content) = none)
      (hanswers : random s.db.idsDrawn = true) (hfresh : ¬ s.db.hasMemory (nextId env s))
      (hversion : maxVersion < (nextMemory env now batch s proposal).version)
      (hturn : Enforced.reconcileProposal env random now batch s proposal = .error .constraint)

theorem Ready.turn (h : Ready batch s) (hdimensions : batch.dimensions ≠ 0) (env : Env) (random : Nat → Bool) (now : Time)
    (proposal : MemoryProposal) : Ready.Turn env random now batch s proposal := by
  cases hlookup : s.exactMemories.lookup (normalizedMemory env proposal.content) with
  | some id =>
    obtain ⟨hturn, hplain, hready⟩ := h.matched hlookup
    exact .repeats id hlookup hturn hplain hready
  | none =>
    cases hrandom : random s.db.idsDrawn with
    | false =>
      refine .unanswered hlookup hrandom ?_
      unfold Enforced.reconcileProposal
      simp only [hlookup, hrandom]
      rfl
    | true =>
      by_cases htaken : s.db.hasMemory (nextId env s)
      · refine .taken hlookup hrandom htaken (Enforced.reconcileProposal_refused hlookup hrandom ?_)
        exact Enforced.insertMemory_taken htaken
      · by_cases hversion : (nextMemory env now batch s proposal).version ≤ maxVersion
        · obtain ⟨u, hturn, hplain, hready⟩ := h.creates hdimensions hlookup hrandom htaken hversion
          exact .creates u hlookup hrandom htaken hversion hturn hplain hready
        · refine .exhausted hlookup hrandom htaken (Nat.lt_of_not_le hversion) ?_
          refine Enforced.reconcileProposal_refused hlookup hrandom (Enforced.insertMemory_refused htaken ?_)
          exact fun _ hallowed => hversion hallowed.2.2.2

end Turn

-- ---------------------------------------------------------------------------
-- Runs of the loop
-- ---------------------------------------------------------------------------

/-- The identifiers of the memories that a loop has made were all drawn since it began. -/
structure Since (env : Env) (before db : Database) : Prop where
  drawn : before.idsDrawn ≤ db.idsDrawn
  ids : ∀ m ∈ db.memories, before.hasMemory m.id ∨
    ∃ k, before.idsDrawn ≤ k ∧ k < db.idsDrawn ∧ m.id = "mem_" ++ env.generateId k

/-- The versions of the memories of a store. -/
def storedVersions (db : Database) : List (String × Nat) := db.memories.rows.map fun m => (m.id, m.version)

/-- The version of a new memory: it comes after that of the first parent. -/
def Names.version (n : Names) (versions : List (String × Nat)) (proposal : MemoryProposal) : Nat :=
  ((n.resolves proposal).head?.bind fun parent => versions.lookup parent.1).getD 0 + 1

/-- None of the new memories of a batch comes after a memory of the largest version. The batch ends early where
    the random source fails, or answers an identifier that is taken. -/
def VersionsFit (env : Env) (random : Nat → Bool) : List (String × Nat) → Names → List MemoryProposal → Prop
  | _, _, [] => True
  | versions, n, proposal :: rest =>
    match n.exactMemories.lookup (normalizedMemory env proposal.content) with
    | some _ => VersionsFit env random versions (n.next env proposal) rest
    | none =>
      let id := "mem_" ++ env.generateId n.idsDrawn
      let version := n.version versions proposal
      random n.idsDrawn = true → versions.lookup id = none →
        version ≤ maxVersion ∧ VersionsFit env random ((id, version) :: versions) (n.next env proposal) rest

theorem VersionsFit.repeats {env : Env} {random : Nat → Bool} {versions : List (String × Nat)} {n : Names}
    {proposal : MemoryProposal} {proposals : List MemoryProposal} {id : String}
    (hknown : n.exactMemories.lookup (normalizedMemory env proposal.content) = some id) :
    VersionsFit env random versions n (proposal :: proposals) ↔
      VersionsFit env random versions (n.next env proposal) proposals := by
  rw [VersionsFit]
  simp only [hknown]

theorem VersionsFit.creates {env : Env} {random : Nat → Bool} {versions : List (String × Nat)} {n : Names}
    {proposal : MemoryProposal} {proposals : List MemoryProposal}
    (hunknown : n.exactMemories.lookup (normalizedMemory env proposal.content) = none) :
    VersionsFit env random versions n (proposal :: proposals) ↔
      (random n.idsDrawn = true → versions.lookup ("mem_" ++ env.generateId n.idsDrawn) = none →
        n.version versions proposal ≤ maxVersion ∧
          VersionsFit env random (("mem_" ++ env.generateId n.idsDrawn, n.version versions proposal) :: versions)
            (n.next env proposal) proposals) := by
  rw [VersionsFit]
  simp only [hunknown]

instance decidableVersionsFit (env : Env) (random : Nat → Bool) :
    ∀ (versions : List (String × Nat)) (n : Names) (proposals : List MemoryProposal),
      Decidable (VersionsFit env random versions n proposals)
  | _, _, [] => isTrue trivial
  | versions, n, proposal :: rest =>
    have := decidableVersionsFit env random versions (n.next env proposal) rest
    have := decidableVersionsFit env random
      (("mem_" ++ env.generateId n.idsDrawn, n.version versions proposal) :: versions) (n.next env proposal) rest
    match h : n.exactMemories.lookup (normalizedMemory env proposal.content) with
    | some _ => decidable_of_iff _ (VersionsFit.repeats h).symm
    | none => decidable_of_iff _ (VersionsFit.creates h).symm

/-- The document of a batch is there, and it has the revision that is expected of it. -/
def SourceCurrent (batch : Batch) (expectedRevision : Option Nat) (db : Database) : Prop :=
  ∃ source, (db.documents.find batch.documentId).filter (·.orgId = batch.orgId) = some source ∧
    ∀ expected ∈ expectedRevision, expected = source.revision

/-- The errors of a document that is missing or stale, and of the random source. -/
inductive Excused (env : Env) (random : Nat → Bool) (batch : Batch) (db : Database) : ReconciliationError → Prop where
  | missing (hmissing : (db.documents.find batch.documentId).filter (·.orgId = batch.orgId) = none) :
      Excused env random batch db (.storage (.unknownMemorySource batch.documentId))
  | stale (claimed : Nat) (current : Option Nat) :
      Excused env random batch db (.storage (.staleRevision batch.documentId claimed current))
  | random (k : Nat) (hdrawn : db.idsDrawn ≤ k) (hrandom : random k = false) : Excused env random batch db .random
  | taken (k : Nat) (hdrawn : db.idsDrawn ≤ k) (htaken : db.hasMemory ("mem_" ++ env.generateId k)) :
      Excused env random batch db .taken

section Run

variable {random : Nat → Bool} {before : Database} {n : Names} {past : List Planned} {versions : List (String × Nat)}
  {proposal : MemoryProposal} {proposals : List MemoryProposal} {s u : Reconciliation}

/-- The versions are those of the memories of a store. -/
def VersionsOf (versions : List (String × Nat)) (db : Database) : Prop :=
  ∀ id version, versions.lookup id = some version ↔ ∃ m ∈ db.memories, m.id = id ∧ m.version = version

theorem storedVersions_of (db : Database) : VersionsOf (storedVersions db) db := by
  intro id version
  have hlookup : (storedVersions db).lookup id = (db.memories.find id).map (·.version) := by
    unfold storedVersions Table.find
    induction db.memories.rows with
    | nil => rfl
    | cons m rest ih =>
      rw [List.map_cons, List.lookup_cons, List.find?_cons, ih]
      by_cases hid : m.id = id
      · simp [hid]
      · simp [hid, beq_false_of_ne (Ne.symm hid)]
  rw [hlookup]
  constructor
  · intro hsome
    obtain ⟨m, hm, hversion⟩ := Option.map_eq_some_iff.mp hsome
    obtain ⟨hmem, hid⟩ := Table.find_eq_some.mp hm
    exact ⟨m, hmem, hid, hversion⟩
  · rintro ⟨m, hm, hid, rfl⟩
    rw [Table.find_eq_some.mpr ⟨hm, hid⟩]
    rfl

theorem VersionsOf.lookup_none (h : VersionsOf versions db) {id : String} :
    versions.lookup id = none ↔ ¬ db.hasMemory id := by
  rw [Option.eq_none_iff_forall_ne_some]
  constructor
  · rintro hnone ⟨m, hm, hid⟩
    exact hnone m.version ((h id m.version).mpr ⟨m, hm, hid, rfl⟩)
  · intro hnone version hsome
    obtain ⟨m, hm, hid, _⟩ := (h id version).mp hsome
    exact hnone ⟨m, hm, hid⟩

/-- The version of the next memory is the one that the names of the batch say. -/
theorem VersionsOf.next (h : VersionsOf versions s.db) (hprogress : Progress env now batch before past n s)
    (proposal : MemoryProposal) : (nextMemory env now batch s proposal).version = n.version versions proposal := by
  unfold Names.version
  rw [← hprogress.resolves proposal]
  unfold nextMemory newMemory
  simp only
  cases hhead : (resolveMemoryParents s.db batch.orgId batch.containerTag proposal.parents s.temporaryIds).head? with
  | none =>
    rw [List.head?_map, hhead]
    rfl
  | some parent =>
    obtain ⟨m, hm, hread, _, _, _, hversion⟩ := mem_resolveMemoryParents (List.mem_of_head? hhead)
    have hlookup : versions.lookup parent.id = some parent.version := (h _ _).mpr ⟨m, hm, hread, hversion⟩
    rw [List.head?_map, hhead]
    simp only [Option.map_some, Option.bind_some, Option.getD_some, ResolvedParent.pair, hlookup]

/-- The memories after a new one, up to what changes when a memory is updated. -/
theorem Creates.version_iff {parents : List ResolvedParent} {id : String}
    (hc : Creates env now batch proposal s u parents id) {key : String} {version : Nat} :
    (∃ m' ∈ u.db.memories, m'.id = key ∧ m'.version = version) ↔
      (∃ m ∈ s.db.memories, m.id = key ∧ m.version = version) ∨
        nextId env s = key ∧ (nextMemory env now batch s proposal).version = version := by
  have hnext : newMemory env now batch proposal parents id = nextMemory env now batch s proposal := by
    rw [hc.resolved, hc.drawn]
    rfl
  obtain ⟨memories, _, _, hinsert, _, hdb⟩ := hc.database
  have hsame : ∀ m : Memory, (if m.id ∈ updatedIds parents then retired now m else m).id = m.id ∧
      (if m.id ∈ updatedIds parents then retired now m else m).version = m.version := by
    intro m
    split <;> exact ⟨rfl, rfl⟩
  have hrow : ∀ m', m' ∈ u.db.memories ↔ ∃ m, (m ∈ s.db.memories ∨ m = nextMemory env now batch s proposal) ∧
      m' = if m.id ∈ updatedIds parents then retired now m else m := by
    intro m'
    rw [hdb]
    simp only [linkParents_memories, Table.mem_update, Table.mem_insert hinsert, hnext]
  simp only [hrow]
  constructor
  · rintro ⟨_, ⟨m, hm, rfl⟩, hid, hversion⟩
    rw [(hsame m).1] at hid
    rw [(hsame m).2] at hversion
    cases hm with
    | inl hold => exact .inl ⟨m, hold, hid, hversion⟩
    | inr hnew =>
      cases hnew
      exact .inr ⟨hid, hversion⟩
  · intro hrows
    cases hrows with
    | inl hold =>
      obtain ⟨m, hm, hid, hversion⟩ := hold
      exact ⟨_, ⟨m, .inl hm, rfl⟩, (hsame m).1.trans hid, (hsame m).2.trans hversion⟩
    | inr hnew => exact ⟨_, ⟨_, .inr rfl, rfl⟩, (hsame _).1.trans hnew.1, (hsame _).2.trans hnew.2⟩

theorem VersionsOf.creates {parents : List ResolvedParent} {id : String} (h : VersionsOf versions s.db)
    (hc : Creates env now batch proposal s u parents id) (hfresh : ¬ s.db.hasMemory (nextId env s)) :
    VersionsOf ((nextId env s, (nextMemory env now batch s proposal).version) :: versions) u.db := by
  intro key version
  rw [hc.version_iff, ← h, List.lookup_cons]
  by_cases hkey : key = nextId env s
  · have hnone : versions.lookup (nextId env s) = none := h.lookup_none.mpr hfresh
    simp [hkey, hnone]
  · simp [beq_false_of_ne hkey, Ne.symm hkey]

theorem Since.start (env : Env) (db : Database) : Since env db db where
  drawn := le_rfl
  ids m hm := .inl ⟨m, hm, rfl⟩

theorem Since.creates {parents : List ResolvedParent} {id : String} (h : Since env before s.db)
    (hc : Creates env now batch proposal s u parents id) : Since env before u.db := by
  have hdrawn : s.db.idsDrawn < u.db.idsDrawn := hc.idsDrawn ▸ Nat.lt_succ_self _
  refine ⟨Nat.le_trans h.drawn (Nat.le_of_lt hdrawn), fun m' hm' => ?_⟩
  cases hc.version_iff.mp ⟨m', hm', rfl, rfl⟩ with
  | inl hold =>
    obtain ⟨m, hm, hid, _⟩ := hold
    rw [← hid]
    refine (h.ids m hm).imp_right fun hnew => ?_
    obtain ⟨k, hle, hlt, hk⟩ := hnew
    exact ⟨k, hle, Nat.lt_trans hlt hdrawn, hk⟩
  | inr hnew => exact .inr ⟨_, h.drawn, hdrawn, hnew.1.symm⟩

/-- No identifier is generated twice, so one that is taken was there before. -/
theorem Since.taken (h : Since env before s.db) (htaken : s.db.hasMemory (nextId env s)) :
    before.hasMemory ("mem_" ++ env.generateId s.db.idsDrawn) := by
  obtain ⟨m, hm, hid⟩ := htaken
  have hid : m.id = "mem_" ++ env.generateId s.db.idsDrawn := hid
  cases h.ids m hm with
  | inl hstored => exact hid ▸ hstored
  | inr hdrawn =>
    obtain ⟨k, _, hlt, hk⟩ := hdrawn
    have hsame : env.generateId s.db.idsDrawn = env.generateId k := (String.append_right_inj "mem_").mp (hid.symm.trans hk)
    exact absurd (env.generateId_injective hsame) (Nat.ne_of_gt hlt)

/-- A loop that ends with the constraints ends in the state in which it ends without them. -/
theorem Ready.loop (h : Ready batch s) (hdimensions : batch.dimensions ≠ 0)
    (hloop : Enforced.reconcileProposals env random now batch proposals s = .ok u) :
    reconcileProposals env now batch proposals s = .ok u ∧ Ready batch u := by
  induction proposals generalizing s with
  | nil =>
    cases hloop
    exact ⟨rfl, h⟩
  | cons proposal rest ih =>
    rw [Enforced.reconcileProposals] at hloop
    obtain ⟨t, hok, hrest⟩ := Loop.bind_ok.mp hloop
    rw [reconcileProposals]
    cases h.turn hdimensions env random now proposal with
    | repeats id _ hturn hplain hready =>
      cases hok.symm.trans hturn
      rw [hplain]
      exact ih hready hrest
    | creates t' _ _ _ _ hturn hplain hready =>
      cases hok.symm.trans hturn
      rw [hplain]
      exact ih hready hrest
    | unanswered _ _ hturn => cases hok.symm.trans hturn
    | taken _ _ _ hturn => cases hok.symm.trans hturn
    | exhausted _ _ _ _ hturn => cases hok.symm.trans hturn

/-- A loop fails because of the random source as long as the versions fit, and because of a constraint otherwise. -/
theorem Ready.loop_fails (h : Ready batch s) (hdimensions : batch.dimensions ≠ 0) (hsince : Since env before s.db)
    (hprogress : Progress env now batch before past n s) (hversions : VersionsOf versions s.db) (random : Nat → Bool)
    (proposals : List MemoryProposal) :
    (VersionsFit env random versions n proposals → ∀ error,
      Enforced.reconcileProposals env random now batch proposals s = .error error → Excused env random batch before error) ∧
    (¬ VersionsFit env random versions n proposals →
      Enforced.reconcileProposals env random now batch proposals s = .error .constraint) := by
  induction proposals generalizing s past n versions with
  | nil =>
    refine ⟨fun _ error hloop => ?_, fun hunfit => absurd trivial hunfit⟩
    cases hloop
  | cons proposal rest ih =>
    rw [Enforced.reconcileProposals]
    cases h.turn hdimensions env random now proposal with
    | repeats id hknown hturn hplain hready =>
      rw [hturn, VersionsFit.repeats (hprogress.exactMemories ▸ hknown)]
      have hunmoved : Since env before (Storage.matched batch proposal id s).db := ⟨hsince.drawn, hsince.ids⟩
      exact ih hready hunmoved (hprogress.turn hplain) hversions
    | creates u hunknown hanswers hfresh hversion hturn hplain hready =>
      rcases reconcileProposal_ok hplain with ⟨id, hknown, _⟩ | ⟨parents, id, hc⟩
      · cases hunknown.symm.trans hknown
      · have hnone : versions.lookup (nextId env s) = none := hversions.lookup_none.mpr hfresh
        have hloop := ih hready (hsince.creates hc) (hprogress.turn hplain) (hversions.creates hc hfresh)
        unfold nextId at hloop hnone
        rw [hversions.next hprogress, hprogress.idsDrawn] at hloop
        rw [hprogress.idsDrawn] at hanswers hnone
        rw [hversions.next hprogress] at hversion
        rw [hturn, VersionsFit.creates (hprogress.exactMemories ▸ hunknown)]
        simp only [hanswers, hnone, hversion, true_and, forall_const]
        exact hloop
    | unanswered hunknown hrandom hturn =>
      rw [hturn, VersionsFit.creates (hprogress.exactMemories ▸ hunknown), ← hprogress.idsDrawn]
      constructor
      · intro _ error hloop
        cases hloop
        exact .random _ hsince.drawn hrandom
      · intro hunfit
        exact absurd (fun hanswers => by rw [hrandom] at hanswers; cases hanswers) hunfit
    | taken hunknown hanswers htaken hturn =>
      rw [hturn, VersionsFit.creates (hprogress.exactMemories ▸ hunknown), ← hprogress.idsDrawn]
      constructor
      · intro _ error hloop
        cases hloop
        exact .taken _ hsince.drawn (hsince.taken htaken)
      · intro hunfit
        exact absurd (fun _ hnone => absurd htaken (hversions.lookup_none.mp hnone)) hunfit
    | exhausted hunknown hanswers hfresh hversion hturn =>
      rw [hturn, VersionsFit.creates (hprogress.exactMemories ▸ hunknown), ← hprogress.idsDrawn]
      constructor
      · intro hfit
        rw [hversions.next hprogress] at hversion
        exact absurd (hfit hanswers (hversions.lookup_none.mpr hfresh)).1 (Nat.not_le_of_lt hversion)
      · exact fun _ => rfl

end Run

-- ---------------------------------------------------------------------------
-- Calls
-- ---------------------------------------------------------------------------

/-- A completion fails where its job has moved on. -/
theorem finishReconciliation_error {jobId documentId : String} {revision : Nat} {e : StorageError}
    (h : finishReconciliation db jobId documentId revision = .error e) :
    ∃ claimed current, e = .staleRevision documentId claimed current := by
  unfold finishReconciliation at h
  simp only at h
  split at h
  · cases h
    exact ⟨_, _, rfl⟩
  · cases h

section Call

variable {random : Nat → Bool} {proposals : List MemoryProposal} {expectedRevision : Option Nat}
  {completionJobId : Option String}

theorem validateProposals_ok {dimensions : Nat} (hvectors : ∀ p ∈ proposals, validateVector env p.vector dimensions = .ok ())
    (hwritten : ∀ p ∈ proposals, ¬ (p.temporaryId = "" ∨ Text.trim p.content.toList = [])) :
    validateProposals env dimensions proposals = .ok () := by
  induction proposals with
  | nil => rfl
  | cons proposal rest ih =>
    obtain ⟨hvector, hvectors⟩ := List.forall_mem_cons.mp hvectors
    obtain ⟨hself, hwritten⟩ := List.forall_mem_cons.mp hwritten
    rw [validateProposals, hvector]
    simp only [if_neg hself]
    exact ih hvectors hwritten

theorem Ready.start (h : Constraints db) {source : Document}
    (hsource : (db.documents.find batch.documentId).filter (·.orgId = batch.orgId) = some source) :
    Ready batch (reconciliationStart env batch db) := by
  obtain ⟨hfind, horg⟩ := Option.filter_eq_some_iff.mp hsource
  obtain ⟨hmem, hid⟩ := Table.find_eq_some.mp hfind
  have horg : source.orgId = batch.orgId := by simpa using horg
  refine ⟨h, ?_, ⟨source, hmem, hid⟩, ?_⟩
  · exact horg ▸ h.documents source hmem
  · intro content id hknown
    obtain ⟨m, hm, hsame, _⟩ := activeMemoryIdsByContent_sound hknown
    exact ⟨m, hm, hsame⟩

section Current

variable {source : Document} (hvalid : validateProposals env batch.dimensions proposals = .ok ())
  (hsource : (db.documents.find batch.documentId).filter (·.orgId = batch.orgId) = some source)
  (hcurrent : ¬ ∃ expected ∈ expectedRevision, expected ≠ source.revision)

include hvalid hsource hcurrent

/-- A call with a current document ends where its loop fails. -/
theorem Enforced.reconcileMemoriesFor_refused {error : ReconciliationError}
    (hloop : Enforced.reconcileProposals env random now batch proposals (reconciliationStart env batch db) = .error error) :
    Enforced.reconcileMemoriesFor env random now batch expectedRevision completionJobId proposals db = .error error := by
  unfold Enforced.reconcileMemoriesFor
  simp only [hvalid, hsource, if_neg hcurrent, hloop]

/-- After its loop, a call goes as it does without the constraints, and only its job can be stale. -/
theorem Enforced.reconcileMemoriesFor_settled (h : Constraints db) (hdimensions : batch.dimensions ≠ 0) {s : Reconciliation}
    (hloop : Enforced.reconcileProposals env random now batch proposals (reconciliationStart env batch db) = .ok s) :
    Enforced.reconcileMemoriesFor env random now batch expectedRevision completionJobId proposals db =
        (Storage.reconcileMemoriesFor env now batch expectedRevision completionJobId proposals db).mapError .storage ∧
      ∀ e, Storage.reconcileMemoriesFor env now batch expectedRevision completionJobId proposals db = .error e →
        ∃ claimed current, e = .staleRevision batch.documentId claimed current := by
  obtain ⟨hplain, hready⟩ := (Ready.start h hsource).loop hdimensions hloop
  obtain ⟨records, hrecords⟩ := readRecords_of_loop hplain
  unfold reconciliationStart at hplain
  unfold Enforced.reconcileMemoriesFor Storage.reconcileMemoriesFor
  simp only [hvalid, hsource, if_neg hcurrent, hloop, hplain, hrecords]
  cases completionJobId with
  | none => exact ⟨rfl, fun _ herror => by cases herror⟩
  | some jobId =>
    cases hfinish : finishReconciliation s.db jobId batch.documentId source.revision with
    | error e =>
      simp only [hfinish]
      refine ⟨rfl, fun e' herror => ?_⟩
      cases herror
      exact finishReconciliation_error hfinish
    | ok finished =>
      simp only [hfinish, (finishReconciliation_expands hfinish).enforced hready.constraints]
      exact ⟨rfl, fun _ herror => by cases herror⟩

end Current

/-- A call that succeeds with the constraints does the same without them. -/
theorem Enforced.reconcileMemoriesFor_ok (h : Constraints db) (hdimensions : batch.dimensions ≠ 0)
    {r : List MemoryRecord × Database}
    (hcall : Enforced.reconcileMemoriesFor env random now batch expectedRevision completionJobId proposals db = .ok r) :
    Storage.reconcileMemoriesFor env now batch expectedRevision completionJobId proposals db = .ok r := by
  cases hvalid : validateProposals env batch.dimensions proposals with
  | error e => simp [Enforced.reconcileMemoriesFor, hvalid] at hcall
  | ok _ =>
    cases hsource : (db.documents.find batch.documentId).filter (·.orgId = batch.orgId) with
    | none => simp [Enforced.reconcileMemoriesFor, hvalid, hsource] at hcall
    | some source =>
      by_cases hstale : ∃ expected ∈ expectedRevision, expected ≠ source.revision
      · simp only [Enforced.reconcileMemoriesFor, hvalid, hsource, if_pos hstale] at hcall
        cases hcall
      · cases hloop : Enforced.reconcileProposals env random now batch proposals (reconciliationStart env batch db) with
        | error e =>
          rw [Enforced.reconcileMemoriesFor_refused hvalid hsource hstale hloop] at hcall
          cases hcall
        | ok s =>
          rw [(Enforced.reconcileMemoriesFor_settled hvalid hsource hstale h hdimensions hloop).1] at hcall
          cases hplain : Storage.reconcileMemoriesFor env now batch expectedRevision completionJobId proposals db with
          | error e => simp [hplain, Except.mapError] at hcall
          | ok r' => simpa [hplain, Except.mapError] using hcall

/-- A call with valid proposals fails because its document is missing or stale, or because of the random source,
    exactly when its document is, or the versions fit. -/
theorem Enforced.reconcileMemoriesFor_excused (h : Constraints db) (hdimensions : batch.dimensions ≠ 0)
    (hvalid : validateProposals env batch.dimensions proposals = .ok ()) :
    (∀ error, Enforced.reconcileMemoriesFor env random now batch expectedRevision completionJobId proposals db = .error error →
      Excused env random batch db error) ↔
    (SourceCurrent batch expectedRevision db →
      VersionsFit env random (storedVersions db) (Names.start env batch db) proposals) := by
  unfold SourceCurrent
  cases hsource : (db.documents.find batch.documentId).filter (·.orgId = batch.orgId) with
  | none =>
    refine iff_of_true (fun error hcall => ?_) fun hfound => ?_
    · simp only [Enforced.reconcileMemoriesFor, hvalid, hsource] at hcall
      cases hcall
      exact .missing hsource
    · obtain ⟨_, hsome, _⟩ := hfound
      cases hsome
  | some source =>
    by_cases hstale : ∃ expected ∈ expectedRevision, expected ≠ source.revision
    · refine iff_of_true (fun error hcall => ?_) fun hcurrent => ?_
      · simp only [Enforced.reconcileMemoriesFor, hvalid, hsource, if_pos hstale] at hcall
        cases hcall
        exact .stale _ _
      · obtain ⟨_, hsome, hrevision⟩ := hcurrent
        cases hsome
        obtain ⟨expected, hexpected, hne⟩ := hstale
        exact absurd (hrevision expected hexpected) hne
    · have hcurrent : ∃ source', some source = some source' ∧ ∀ expected ∈ expectedRevision, expected = source'.revision :=
        ⟨source, rfl, by simpa using hstale⟩
      have hprogress : Progress env now batch db [] (Names.start env batch db) (reconciliationStart env batch db) := .start
      obtain ⟨hfits, hunfit⟩ := (Ready.start h hsource).loop_fails hdimensions (.start env db) hprogress (storedVersions_of db)
        random proposals
      constructor
      · intro hexcused _
        by_contra hlarge
        cases hexcused _ (Enforced.reconcileMemoriesFor_refused hvalid hsource hstale (hunfit hlarge))
      · intro hfit error hcall
        cases hloop : Enforced.reconcileProposals env random now batch proposals (reconciliationStart env batch db) with
        | error e =>
          cases hcall.symm.trans (Enforced.reconcileMemoriesFor_refused hvalid hsource hstale hloop)
          exact hfits (hfit hcurrent) _ hloop
        | ok s =>
          obtain ⟨hsame, hjob⟩ := Enforced.reconcileMemoriesFor_settled hvalid hsource hstale h hdimensions hloop
          cases hplain : Storage.reconcileMemoriesFor env now batch expectedRevision completionJobId proposals db with
          | error e =>
            obtain ⟨claimed, current, rfl⟩ := hjob e hplain
            rw [hsame, hplain] at hcall
            cases hcall
            exact .stale claimed current
          | ok r =>
            rw [hsame, hplain] at hcall
            cases hcall

end Call

end Storage
