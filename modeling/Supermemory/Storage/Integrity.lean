-- SUMMARY: The constraints of the schema hold in every reachable state, also those that no statement checks, and a deleted document is gone for good.
import Supermemory.Storage.ImportSteps
import Supermemory.Storage.Publication
import Supermemory.Storage.Statements
import Supermemory.Storage.VersionLineage

/-!
# Integrity

The schema declares foreign keys, unique indexes and checks. Some of them a statement of
the model looks at, and others it does not, because no call could break them. `Integrity`
states them all, with what the schema cannot say: no row joins two organizations. It is
kept by every statement, and so by every call.
-/

namespace Storage

variable {env : Env} {now : Time} {mine : String → Prop} {db db' : Database}

/-- The relations that `memory_relations` admits. -/
def IsRelation (relation : String) : Prop := relation = "updates" ∨ relation = "extends" ∨ relation = "derives"

/-- The foreign keys, the index on active jobs and the checks of the schema. A source joins a memory and
    a document of one organization, and a relation joins two memories of one profile. -/
structure Integrity (db : Database) : Prop where
  documentOrganization : db.documents.Refers (fun d => some d.orgId) db.organizations
  documentAllowed : ∀ d ∈ db.documents, d.Allowed
  jobDocument : db.jobs.Refers (fun j => some j.documentId) db.documents
  jobAllowed : ∀ j ∈ db.jobs, j.status ≠ .unknown ∧ 0 < j.revision
  activeJob : ∀ j ∈ db.jobs, ∀ j' ∈ db.jobs, j.documentId = j'.documentId → j.revision = j'.revision →
    j.status.IsActive → j'.status.IsActive → j = j'
  chunkDocument : db.chunks.Refers (fun c => some c.documentId) db.documents
  chunkDimensions : ∀ e ∈ db.chunkEmbeddings, 0 < e.dimensions
  memoryOrganization : db.memories.Refers (fun m => some m.orgId) db.organizations
  memoryVersion : ∀ m ∈ db.memories, 0 < m.version
  memoryParent : ∀ m ∈ db.memories, ∀ id ∈ m.parentMemoryId, ∃ p ∈ db.memories, p.id = id ∧ SameProfile p m
  source : ∀ r ∈ db.memorySources, ∃ m ∈ db.memories, ∃ d ∈ db.documents,
    m.id = r.memoryId ∧ d.id = r.documentId ∧ m.orgId = d.orgId
  relation : ∀ r ∈ db.memoryRelations, IsRelation r.relation ∧ ∃ p ∈ db.memories, ∃ c ∈ db.memories,
    p.id = r.parentId ∧ c.id = r.childId ∧ SameProfile p c
  memoryVector : db.memoryEmbeddings.Refers (fun e => some e.memoryId) db.memories
  memoryDimensions : ∀ e ∈ db.memoryEmbeddings, 0 < e.dimensions

-- ---------------------------------------------------------------------------
-- Inserted rows
-- ---------------------------------------------------------------------------

theorem insertChunkEmbedding_inserts {chunkId dimensions : Nat} {modelId : String} {vector : List F32}
    (h : insertChunkEmbedding db chunkId modelId dimensions vector = .ok db') :
    0 < dimensions ∧ ∃ chunkEmbeddings, db.chunkEmbeddings.insert
        { chunkId, modelId, dimensions, vector := vectorBytes vector } = some chunkEmbeddings ∧
      db' = { db with chunkEmbeddings } := by
  unfold insertChunkEmbedding at h
  split at h
  · cases h
  · rename_i hdimensions
    split at h
    · cases h
    · rename_i chunkEmbeddings hinsert
      cases h
      exact ⟨Nat.pos_of_ne_zero hdimensions, chunkEmbeddings, hinsert, rfl⟩

theorem insertMemoryEmbedding_inserts {memoryId modelId : String} {dimensions : Nat} {vector : List F32}
    (h : insertMemoryEmbedding db memoryId modelId dimensions vector = .ok db') :
    0 < dimensions ∧ ∃ memoryEmbeddings, db.memoryEmbeddings.insert
        { memoryId, modelId, dimensions, vector := vectorBytes vector, active := true } = some memoryEmbeddings ∧
      db' = { db with memoryEmbeddings } := by
  unfold insertMemoryEmbedding at h
  split at h
  · cases h
  · rename_i hdimensions
    split at h
    · cases h
    · rename_i memoryEmbeddings hinsert
      cases h
      exact ⟨Nat.pos_of_ne_zero hdimensions, memoryEmbeddings, hinsert, rfl⟩

-- ---------------------------------------------------------------------------
-- Statements
-- ---------------------------------------------------------------------------

namespace Integrity

theorem insertDocument {d : Document} {documents : Table Document Document.id} {idsDrawn : Nat} (h : Integrity db)
    (hallowed : d.Allowed) (horganization : ∃ o ∈ db.organizations, o.id = d.orgId)
    (hinsert : db.documents.insert d = some documents) : Integrity { db with documents, idsDrawn } := by
  have hkept : db.documents.Retains documents := .insert hinsert
  exact { h with
    documentOrganization := h.documentOrganization.insertTotal hinsert horganization
    documentAllowed := by
      intro d' hd'
      cases (Table.mem_insert hinsert).mp hd' with
      | inl hold => exact h.documentAllowed d' hold
      | inr hnew => exact hnew ▸ hallowed
    jobDocument := h.jobDocument.step .refl hkept
    chunkDocument := h.chunkDocument.step .refl hkept
    source := by
      intro r hr
      obtain ⟨m, hm, d', hd', hsource⟩ := h.source r hr
      exact ⟨m, hm, d', (Table.mem_insert hinsert).mpr (.inl hd'), hsource⟩ }

theorem updateDocuments {p : Document → Prop} [DecidablePred p] {f : Document → Document}
    {hf : ∀ d, d.id = (f d).id} (h : Integrity db) (hbecomes : ∀ d ∈ db.documents, p d → d.Becomes (f d)) :
    Integrity { db with documents := db.documents.update p f hf } := by
  have hkept : db.documents.Retains (db.documents.update p f hf) := .update
  have hnarrows : db.documents.Narrows (fun d => some d.orgId) (db.documents.update p f hf) :=
    .update fun d hd hguard => congrArg some (hbecomes d hd hguard).orgId
  exact { h with
    documentOrganization := h.documentOrganization.step hnarrows .refl
    documentAllowed := by
      intro d' hd'
      have hmem : d' ∈ db.documents.update p f hf := hd'
      obtain ⟨d, hd, _, rfl⟩ := Table.of_mem_update hmem
      split
      · rename_i hguard
        exact (hbecomes d hd hguard).allowed (h.documentAllowed d hd)
      · exact h.documentAllowed d hd
    jobDocument := h.jobDocument.step .refl hkept
    chunkDocument := h.chunkDocument.step .refl hkept
    source := by
      intro r hr
      obtain ⟨m, hm, d, hd, hmid, hdid, horg⟩ := h.source r hr
      have hmem : (if p d then f d else d) ∈ db.documents.update p f hf := Table.update_mem hd
      refine ⟨m, hm, _, hmem, hmid, ?_⟩
      split
      · rename_i hguard
        exact ⟨(hf d).symm.trans hdid, horg.trans (hbecomes d hd hguard).orgId.symm⟩
      · exact ⟨hdid, horg⟩ }

theorem deleteDocument (h : Integrity db) (id : String) : Integrity (db.deleteDocument id) where
  documentOrganization := h.documentOrganization.step .delete .refl
  documentAllowed d hd := h.documentAllowed d (Table.mem_delete.mp hd).1
  jobDocument := by
    refine h.jobDocument.cascade fun j _ d _ hcolumn hid => ?_
    exact (Option.some_inj.mp hcolumn).trans hid
  jobAllowed j hj := h.jobAllowed j (Table.mem_delete.mp hj).1
  activeJob j hj j' hj' := h.activeJob j (Table.mem_delete.mp hj).1 j' (Table.mem_delete.mp hj').1
  chunkDocument := by
    refine h.chunkDocument.cascade fun c _ d _ hcolumn hid => ?_
    exact (Option.some_inj.mp hcolumn).trans hid
  chunkDimensions e he := h.chunkDimensions e (Table.mem_delete.mp he).1
  memoryOrganization := h.memoryOrganization
  memoryVersion := h.memoryVersion
  memoryParent := h.memoryParent
  source := by
    intro r hr
    obtain ⟨hmem, hkept⟩ := Table.mem_delete.mp hr
    obtain ⟨m, hm, d, hd, hmid, hdid, horg⟩ := h.source r hmem
    have hd' : d ∈ db.documents.delete fun d => d.id = id :=
      Table.mem_delete.mpr ⟨hd, fun hid => hkept (hdid.symm.trans hid)⟩
    exact ⟨m, hm, d, hd', hmid, hdid, horg⟩
  relation := h.relation
  memoryVector := h.memoryVector
  memoryDimensions := h.memoryDimensions

theorem insertJob {documentId : String} {kind : JobKind} {revision : Nat} (h : Integrity db)
    (hdocument : db.documentRevision documentId = some revision)
    (hjob : db.insertJob env now documentId kind revision = .ok db') : Integrity db' := by
  obtain ⟨d, hd, hid, hrevision⟩ := documentRevision_eq_some.mp hdocument
  obtain ⟨hinactive, jobs, hinsert, rfl⟩ := insertJob_ok hjob
  exact { h with
    jobDocument := h.jobDocument.insertTotal hinsert ⟨d, hd, hid⟩
    jobAllowed := by
      intro j hj
      cases (Table.mem_insert hinsert).mp hj with
      | inl hold => exact h.jobAllowed j hold
      | inr hnew =>
        rw [hnew]
        exact ⟨nofun, hrevision ▸ (h.documentAllowed d hd).1⟩
    activeJob := by
      intro j hj j' hj' hsame hrev hactive hactive'
      rcases (Table.mem_insert hinsert).mp hj with hold | rfl <;>
        rcases (Table.mem_insert hinsert).mp hj' with hold' | rfl
      · exact h.activeJob j hold j' hold' hsame hrev hactive hactive'
      · exact absurd hactive (hinactive j hold hsame hrev)
      · exact absurd hactive' (hinactive j' hold' hsame.symm hrev.symm)
      · rfl }

theorem updateJobs {p : Job → Prop} [DecidablePred p] {f : Job → Job} {hf : ∀ j, j.id = (f j).id}
    (h : Integrity db) (hbecomes : ∀ j ∈ db.jobs, p j → j.Becomes now (f j)) :
    Integrity { db with jobs := db.jobs.update p f hf } := by
  have hrow : ∀ j' ∈ db.jobs.update p f hf, ∃ j ∈ db.jobs, j' = (if p j then f j else j) ∧ j.Becomes now j' := by
    intro j' hj'
    obtain ⟨j, hj, _, rfl⟩ := Table.of_mem_update hj'
    refine ⟨j, hj, rfl, ?_⟩
    split
    · rename_i hguard
      exact hbecomes j hj hguard
    · exact ⟨⟨rfl, rfl, rfl, rfl⟩, rfl, fun _ => .inl rfl, id, id⟩
  have hnarrows : db.jobs.Narrows (fun j => some j.documentId) (db.jobs.update p f hf) :=
    .update fun j hj hguard => congrArg some (hbecomes j hj hguard).same.2.1
  exact { h with
    jobDocument := h.jobDocument.step hnarrows .refl
    jobAllowed := by
      intro j' hj'
      obtain ⟨j, hj, _, hbecomes⟩ := hrow j' hj'
      obtain ⟨hknown, hrevision⟩ := h.jobAllowed j hj
      exact ⟨hbecomes.known hknown, hbecomes.same.2.2.2.symm ▸ hrevision⟩
    activeJob := by
      intro j₁' hj₁' j₂' hj₂' hdocument hrevision hactive₁ hactive₂
      obtain ⟨j₁, hj₁, rfl, hbecomes₁⟩ := hrow j₁' hj₁'
      obtain ⟨j₂, hj₂, rfl, hbecomes₂⟩ := hrow j₂' hj₂'
      have hsame := h.activeJob j₁ hj₁ j₂ hj₂
        (hbecomes₁.same.2.1.symm.trans (hdocument.trans hbecomes₂.same.2.1))
        (hbecomes₁.same.2.2.2.symm.trans (hrevision.trans hbecomes₂.same.2.2.2))
        (hbecomes₁.active hactive₁) (hbecomes₂.active hactive₂)
      rw [hsame] }

theorem deleteChunks (h : Integrity db) (id : String) : Integrity (deleteChunks db id) :=
  { h with
    chunkDocument := h.chunkDocument.step .delete .refl
    chunkDimensions := fun e he => h.chunkDimensions e (Table.mem_delete.mp he).1 }

theorem insertMemory {m : Memory} {memories : Table Memory Memory.id} {idsDrawn : Nat} (h : Integrity db)
    (hversion : 0 < m.version) (horganization : ∃ d ∈ db.documents, d.orgId = m.orgId)
    (hparent : ∀ id ∈ m.parentMemoryId, ∃ p ∈ db.memories, p.id = id ∧ SameProfile p m)
    (hinsert : db.memories.insert m = some memories) : Integrity { db with memories, idsDrawn } := by
  have hold {m' : Memory} (hm' : m' ∈ db.memories) : m' ∈ memories := (Table.mem_insert hinsert).mpr (.inl hm')
  exact { h with
    memoryOrganization := by
      obtain ⟨d, hd, horg⟩ := horganization
      exact h.memoryOrganization.insertTotal hinsert (horg ▸ h.documentOrganization d hd d.orgId rfl)
    memoryVersion := by
      intro m' hm'
      cases (Table.mem_insert hinsert).mp hm' with
      | inl hm' => exact h.memoryVersion m' hm'
      | inr hnew => exact hnew ▸ hversion
    memoryParent := by
      intro m' hm' id hid
      cases (Table.mem_insert hinsert).mp hm' with
      | inl hm' =>
        obtain ⟨p, hp, hparent⟩ := h.memoryParent m' hm' id hid
        exact ⟨p, hold hp, hparent⟩
      | inr hnew =>
        obtain ⟨p, hp, hparent⟩ := hparent id (hnew ▸ hid)
        exact ⟨p, hold hp, hnew ▸ hparent⟩
    source := by
      intro r hr
      obtain ⟨m', hm', hsource⟩ := h.source r hr
      exact ⟨m', hold hm', hsource⟩
    relation := by
      intro r hr
      obtain ⟨hkind, p, hp, c, hc, hrelated⟩ := h.relation r hr
      exact ⟨hkind, p, hold hp, c, hold hc, hrelated⟩
    memoryVector := h.memoryVector.step .refl (.insert hinsert) }

theorem updateMemories {p : Memory → Prop} [DecidablePred p] {f : Memory → Memory} {hf : ∀ m, m.id = (f m).id}
    (h : Integrity db) (hbecomes : ∀ m ∈ db.memories, p m → m.Becomes (f m)) :
    Integrity { db with memories := db.memories.update p f hf } := by
  have hrow : ∀ m' ∈ db.memories.update p f hf, ∃ m ∈ db.memories, m.Becomes m' := by
    intro m' hm'
    obtain ⟨m, hm, _, rfl⟩ := Table.of_mem_update hm'
    refine ⟨m, hm, ?_⟩
    split
    · rename_i hguard
      exact hbecomes m hm hguard
    · exact .refl m
  have hkept : ∀ m ∈ db.memories, ∃ m' ∈ db.memories.update p f hf, m.Becomes m' := by
    intro m hm
    have hmem : (if p m then f m else m) ∈ db.memories.update p f hf := Table.update_mem hm
    refine ⟨_, hmem, ?_⟩
    split
    · rename_i hguard
      exact hbecomes m hm hguard
    · exact .refl m
  have hnarrows : db.memories.Narrows (fun m => some m.orgId) (db.memories.update p f hf) :=
    .update fun m hm hguard => congrArg some (hbecomes m hm hguard).profile.1
  have hretains : db.memories.Retains (db.memories.update p f hf) := .update
  exact { h with
    memoryOrganization := h.memoryOrganization.step hnarrows .refl
    memoryVersion := by
      intro m' hm'
      obtain ⟨m, hm, hbecomes⟩ := hrow m' hm'
      exact hbecomes.version.symm ▸ h.memoryVersion m hm
    memoryParent := by
      intro m' hm' id hid
      obtain ⟨m, hm, hbecomes⟩ := hrow m' hm'
      obtain ⟨q, hq, hqid, hprofile⟩ := h.memoryParent m hm id (hbecomes.parentMemoryId ▸ hid)
      obtain ⟨q', hq', hqbecomes⟩ := hkept q hq
      exact ⟨q', hq', hqbecomes.id.trans hqid, (hqbecomes.profile.trans hprofile).trans hbecomes.profile.symm⟩
    source := by
      intro r hr
      obtain ⟨m, hm, d, hd, hmid, hdid, horg⟩ := h.source r hr
      obtain ⟨m', hm', hbecomes⟩ := hkept m hm
      exact ⟨m', hm', d, hd, hbecomes.id.trans hmid, hdid, hbecomes.profile.1.trans horg⟩
    relation := by
      intro r hr
      obtain ⟨hkind, q, hq, c, hc, hqid, hcid, hprofile⟩ := h.relation r hr
      obtain ⟨q', hq', hqbecomes⟩ := hkept q hq
      obtain ⟨c', hc', hcbecomes⟩ := hkept c hc
      exact ⟨hkind, q', hq', c', hc', hqbecomes.id.trans hqid, hcbecomes.id.trans hcid,
        (hqbecomes.profile.trans hprofile).trans hcbecomes.profile.symm⟩
    memoryVector := h.memoryVector.step .refl hretains }

theorem addRelation {parent child : Memory} {kind : String} (h : Integrity db) (hparent : parent ∈ db.memories)
    (hchild : child ∈ db.memories) (hsame : SameProfile parent child) :
    Integrity (addRelation db parent.id child.id kind) := by
  unfold Storage.addRelation
  split
  · rename_i hkind
    exact { h with
      relation := by
        intro r hr
        cases Table.mem_insertOrIgnore.mp hr with
        | inl hold => exact h.relation r hold
        | inr hnew =>
          rw [hnew]
          exact ⟨hkind, parent, hparent, child, hchild, rfl, rfl, hsame⟩ }
  · exact h

end Integrity

/-- Every statement keeps the constraints. -/
theorem Statement.integrity (h : Statement env now mine db db') (hdb : Integrity db) : Integrity db' := by
  cases h with
  | drawId => exact { hdb with }
  | insertOrganization hinsert =>
    exact { hdb with
      documentOrganization := hdb.documentOrganization.step .refl (.insert hinsert)
      memoryOrganization := hdb.memoryOrganization.step .refl (.insert hinsert) }
  | insertDocument _ _ hallowed horganization hinsert => exact hdb.insertDocument hallowed horganization hinsert
  | updateDocuments hbecomes => exact hdb.updateDocuments fun d hd hguard => (hbecomes d hd hguard).2
  | deleteDocument => exact hdb.deleteDocument _
  | insertJob _ hdocument hjob => exact hdb.insertJob hdocument hjob
  | updateJobs hbecomes => exact hdb.updateJobs fun j hj hguard => (hbecomes j hj hguard).2
  | deleteChunks => exact hdb.deleteChunks _
  | insertChunk _ hdocument hchunk =>
    obtain ⟨chunks, hinsert, rfl⟩ := insertChunk_inserts hchunk
    exact { hdb with chunkDocument := hdb.chunkDocument.insertTotal hinsert hdocument }
  | insertChunkEmbedding _ _ hembed =>
    obtain ⟨hdimensions, chunkEmbeddings, hinsert, rfl⟩ := insertChunkEmbedding_inserts hembed
    exact { hdb with
      chunkDimensions := by
        intro e he
        cases (Table.mem_insert hinsert).mp he with
        | inl hold => exact hdb.chunkDimensions e hold
        | inr hnew => exact hnew ▸ hdimensions }
  | insertMemory _ hversion horganization hparent hinsert =>
    exact hdb.insertMemory hversion horganization hparent hinsert
  | updateMemories hbecomes => exact hdb.updateMemories fun m hm hguard => (hbecomes m hm hguard).2
  | @insertSource m d memorySources hm hd horganization _ hinsert =>
    exact { hdb with
      source := by
        intro r hr
        cases (Table.mem_insert hinsert).mp hr with
        | inl hold => exact hdb.source r hold
        | inr hnew => exact ⟨m, hm, d, hd, by rw [hnew], by rw [hnew], horganization⟩ }
  | addRelation hparent hchild hsame => exact hdb.addRelation hparent hchild hsame
  | @insertMemoryEmbedding db' m dimensions modelId vector hm _ hembed =>
    obtain ⟨hdimensions, memoryEmbeddings, hinsert, rfl⟩ := insertMemoryEmbedding_inserts hembed
    exact { hdb with
      memoryVector := hdb.memoryVector.insertTotal hinsert ⟨m, hm, rfl⟩
      memoryDimensions := by
        intro e he
        cases (Table.mem_insert hinsert).mp he with
        | inl hold => exact hdb.memoryDimensions e hold
        | inr hnew => exact hnew ▸ hdimensions }
  | @deactivateVectors p _ _ =>
    have hnarrows : db.memoryEmbeddings.Narrows (fun e => some e.memoryId)
        (db.memoryEmbeddings.update p deactivated) := .update fun _ _ _ => rfl
    exact { hdb with
      memoryVector := hdb.memoryVector.step hnarrows .refl
      memoryDimensions := by
        intro e' he'
        have hmem : e' ∈ db.memoryEmbeddings.update p deactivated := he'
        obtain ⟨e, he, _, rfl⟩ := Table.of_mem_update hmem
        split
        · exact hdb.memoryDimensions e he
        · exact hdb.memoryDimensions e he }

theorem Integrity.start {s : System} (hs : s.Empty) : Integrity s.db := by
  obtain ⟨organizations, rfl⟩ := hs
  constructor <;> exact fun _ h => absurd h Table.not_mem_empty

/-- A call keeps the constraints: its statements do, one after the other. -/
theorem Call.integrity {s : System} {call : Call} (hs : Consistent env s) (hissued : call.Issued s)
    (h : Integrity s.db) : Integrity (call.run env now s.db).2 := by
  have hstatements : Statements env now (call.ActsFor now s.db) s.db (call.run env now s.db).2 :=
    Call.statements hs hissued
  exact hstatements.invariant (fun _ _ hdb hstatement => hstatement.integrity hdb) h

theorem integrity_of_reachable {s : System} (h : (machine env).Reachable s) : Integrity s.db := by
  apply h.invariant (I := fun s => Integrity s.db)
  · exact fun s hs => .start hs
  · intro s event s' hs hdb hstep
    obtain ⟨hissued, rfl⟩ := machine_step.mp hstep
    rw [System.after_db]
    exact Call.integrity (consistent_of_reachable hs) hissued hdb

/-- The identifier was given to a document that is not there any more. -/
def Gone (env : Env) (id : String) (db : Database) : Prop := Drawn env db id ∧ ∀ d ∈ db.documents, d.id ≠ id

/-- No statement brings a document back: a new one takes an identifier that was never drawn. -/
theorem Statement.gone {id : String} (h : Statement env now mine db db') (hgone : Gone env id db) :
    Gone env id db' := by
  obtain ⟨hdrawn, habsent⟩ := hgone
  cases h with
  | drawId => exact ⟨hdrawn.mono (Nat.le_succ _), habsent⟩
  | insertDocument hid _ _ _ hinsert =>
    refine ⟨hdrawn.mono (Nat.le_succ _), fun d' hd' => ?_⟩
    cases (Table.mem_insert hinsert).mp hd' with
    | inl hold => exact habsent d' hold
    | inr hnew =>
      rw [hnew, hid]
      exact hdrawn.ne_next.symm
  | @updateDocuments p _ f hf hbecomes =>
    refine ⟨hdrawn, fun d' hd' => ?_⟩
    have hmem : d' ∈ db.documents.update p f hf := hd'
    obtain ⟨d, hd, hkey, _⟩ := Table.of_mem_update hmem
    exact hkey ▸ habsent d hd
  | deleteDocument => exact ⟨hdrawn, fun d hd => habsent d (Table.mem_delete.mp hd).1⟩
  | insertJob _ _ hjob =>
    obtain ⟨_, _, _, rfl⟩ := insertJob_ok hjob
    exact ⟨hdrawn.mono (Nat.le_succ _), habsent⟩
  | insertChunk _ _ hchunk =>
    obtain ⟨_, _, rfl⟩ := insertChunk_inserts hchunk
    exact ⟨hdrawn, habsent⟩
  | insertChunkEmbedding _ _ hembed =>
    obtain ⟨_, rfl⟩ := insertChunkEmbedding_ok hembed
    exact ⟨hdrawn, habsent⟩
  | insertMemory => exact ⟨hdrawn.mono (Nat.le_succ _), habsent⟩
  | addRelation =>
    unfold Storage.addRelation
    split
    · exact ⟨hdrawn, habsent⟩
    · exact ⟨hdrawn, habsent⟩
  | insertMemoryEmbedding _ _ hembed =>
    obtain ⟨_, rfl, _⟩ := insertMemoryEmbedding_ok hembed
    exact ⟨hdrawn, habsent⟩
  | insertOrganization | updateJobs | deleteChunks | updateMemories | insertSource | deactivateVectors =>
    exact ⟨hdrawn, habsent⟩

/-- A document that is gone stays gone, whatever is called and however late. -/
theorem gone_for_good {id : String} {s t : System} (hs : (machine env).Reachable s) (hgone : Gone env id s.db)
    (hrun : (machine env).Run s t) : Gone env id t.db := by
  induction hrun with
  | refl => exact hgone
  | @step t u event hrun hstep ih =>
    obtain ⟨hissued, rfl⟩ := machine_step.mp hstep
    have hstatements : Statements env event.1 (event.2.ActsFor event.1 t.db) t.db (event.2.run env event.1 t.db).2 :=
      Call.statements (consistent_of_reachable (hs.run hrun)) hissued
    rw [System.after_db]
    exact hstatements.invariant (fun _ _ hgone hstatement => hstatement.gone hgone) ih

/-- The document that a call is about: the one of its handle, or the one it gives as a source. -/
def Call.document : Call → Option String
  | .markJobStage k _ | .completeJob k _ | .completeEmbeddedJob k _ _ _
  | .completeEmbeddedJobWithMemoryExtraction k _ _ _ | .failJob k _ | .deleteEmptyDocument k => some k.documentId
  | .cacheMemoryExtraction m _ | .completeMemoryJob m | .retryMemoryJob m _ _ _ => some m.documentId
  | .reconcileMemories batch _ _ _ => some batch.documentId
  | _ => none

/-- What is left of a deleted document: nothing refers to it, nothing can be claimed for it, and a call
    that is late for it changes nothing. -/
structure DeadDocument (env : Env) (id : String) (s : System) : Prop where
  documents : ∀ d ∈ s.db.documents, d.id ≠ id
  jobs : ∀ j ∈ s.db.jobs, j.documentId ≠ id
  chunks : ∀ c ∈ s.db.chunks, c.documentId ≠ id
  sources : ∀ r ∈ s.db.memorySources, r.documentId ≠ id
  unclaimed : ∀ now kind j d, nextJob s.db now kind = some (j, d) → d.id ≠ id
  late : ∀ (now : Time) (call : Call), call.Issued s → call.document = some id → (call.run env now s.db).2 = s.db

section Late

variable {id : String}

theorem documentRevision_gone (hgone : ∀ d ∈ db.documents, d.id ≠ id) : db.documentRevision id = none := by
  cases hrevision : db.documentRevision id with
  | none => rfl
  | some revision =>
    obtain ⟨d, hd, hid, _⟩ := documentRevision_eq_some.mp hrevision
    exact absurd hid (hgone d hd)

/-- An assignment to the row of a handle whose row is gone. -/
theorem updateJobs_gone {rowId : String} {p : Job → Prop} [DecidablePred p] {f : Job → Job}
    {hf : ∀ j, j.id = (f j).id} (hgone : ∀ j ∈ db.jobs, j.id ≠ rowId) (hp : ∀ j, p j → j.id = rowId) :
    { db with jobs := db.jobs.update p f hf } = db := by
  rw [Table.update_eq_self fun j hj hguard => hgone j hj (hp j hguard)]

theorem setDocumentStatus_gone (hgone : ∀ d ∈ db.documents, d.id ≠ id) (revision : Nat) (status : DocumentState) :
    db.setDocumentStatus id revision status = db := by
  unfold Database.setDocumentStatus
  rw [Table.update_eq_self fun d hd hguard => hgone d hd hguard.1]

theorem publishJob_gone {k : ClaimedJob} {chunks : List EmbeddedChunk} {embedding : Option (String × Nat)}
    {schedule : Bool} (hgone : ∀ d ∈ db.documents, d.id ≠ k.documentId) :
    publishJob env now k chunks embedding schedule db ≠ .ok db' := by
  intro h
  have hcurrent := (publishJob_inserts h).1
  rw [documentRevision_gone hgone] at hcurrent
  cases hcurrent

theorem commit_refused {r : Except StorageError (Answer × Database)} (h : ∀ p, r ≠ .ok p) : (commit db r).2 = db := by
  cases r with
  | error e => rfl
  | ok p => exact absurd rfl (h p)

/-- A transaction that never commits changes nothing. -/
theorem commitUnit_refused {r : Except StorageError Database} (h : ∀ db', r ≠ .ok db') :
    (commit db (r.map (Answer.unit, ·))).2 = db := by
  cases r with
  | error e => rfl
  | ok db' => exact absurd rfl (h db')

end Late

/-- What is gone from a reachable store is dead. -/
theorem Gone.dead {id : String} {s : System} (h : Gone env id s.db) (hs : (machine env).Reachable s) :
    DeadDocument env id s := by
  have hintegrity := integrity_of_reachable hs
  have hconsistent := consistent_of_reachable hs
  obtain ⟨_, habsent⟩ := h
  have hjobs : ∀ j ∈ s.db.jobs, j.documentId ≠ id :=
    fun j hj heq => hintegrity.jobDocument.absent habsent hj (congrArg some heq)
  constructor
  case documents => exact habsent
  case jobs => exact hjobs
  case chunks => exact fun c hc heq => hintegrity.chunkDocument.absent habsent hc (congrArg some heq)
  case sources =>
    intro r hr heq
    obtain ⟨_, _, d, hd, _, hdid, _⟩ := hintegrity.source r hr
    exact habsent d hd (hdid.trans heq)
  case unclaimed => exact fun _ _ _ d hnext => habsent d (nextJob_some hnext).2.1
  case late =>
    rintro now call ⟨hjob, hmemoryJob⟩ hdocument
    have hrow {k : ClaimedJob} (hk : call.job = some k) (hid : k.documentId = id) : ∀ j ∈ s.db.jobs, j.id ≠ k.id :=
      fun j hj hjid => hjobs j hj ((hconsistent.rowOf (hjob k hk) j hj hjid).trans hid)
    have hmemoryRow {m : ClaimedMemoryJob} (hm : call.memoryJob = some m) (hid : m.documentId = id) :
        ∀ j ∈ s.db.jobs, j.id ≠ m.id :=
      fun j hj hjid => hjobs j hj ((hconsistent.memoryRowOf (hmemoryJob m hm) j hj hjid).trans hid)
    cases call with
    | markJobStage k stage =>
      have hid : k.documentId = id := Option.some_inj.mp hdocument
      refine commitUnit_refused fun db' hok => ?_
      obtain ⟨_, _, _, ⟨d, hd, hdid, _⟩, _⟩ := markJobStage_ok hok
      exact habsent d hd (hdid.trans hid)
    | completeJob k chunks =>
      cases Option.some_inj.mp hdocument
      exact commitUnit_refused fun db' hok => publishJob_gone habsent hok
    | completeEmbeddedJob k chunks modelId dimensions =>
      cases Option.some_inj.mp hdocument
      exact commitUnit_refused fun db' hok => publishJob_gone habsent (completeEmbeddedJob_publishes hok).2.2
    | completeEmbeddedJobWithMemoryExtraction k chunks modelId dimensions =>
      cases Option.some_inj.mp hdocument
      exact commitUnit_refused fun db' hok =>
        publishJob_gone habsent (completeEmbeddedJobWithMemoryExtraction_publishes hok).2.2
    | failJob k error =>
      have hid : k.documentId = id := Option.some_inj.mp hdocument
      simp only [Call.run, failJob]
      rw [updateJobs_gone (hrow rfl hid) fun _ hguard => hguard.1]
      exact setDocumentStatus_gone (hid ▸ habsent) _ _
    | deleteEmptyDocument k =>
      have hid : k.documentId = id := Option.some_inj.mp hdocument
      simp only [Call.run, deleteEmptyDocument]
      split
      · rfl
      · rename_i d hfind
        obtain ⟨hd, hdid⟩ := Table.find_eq_some.mp hfind
        exact absurd (hdid.trans hid) (habsent d hd)
    | cacheMemoryExtraction m result =>
      have hid : m.documentId = id := Option.some_inj.mp hdocument
      have hgone := hmemoryRow rfl hid
      simp only [Call.run]
      rcases cacheMemoryExtraction_cases m result s.db with ⟨⟨j, hj, hcacheable⟩, _⟩ | ⟨_, heq⟩
      · exact absurd hcacheable.1 (hgone j hj)
      · rw [heq]
        exact updateJobs_gone hgone fun _ hguard => hguard.1
    | completeMemoryJob m =>
      have hid : m.documentId = id := Option.some_inj.mp hdocument
      have hgone := hmemoryRow rfl hid
      simp only [Call.run]
      cases hcomplete : Storage.completeMemoryJob m s.db with
      | error e => rfl
      | ok db' =>
        rcases completeMemoryJob_ok hcomplete with ⟨_, rfl⟩ | ⟨hcurrent, _⟩
        · exact updateJobs_gone hgone fun _ hguard => hguard.1
        · rw [hid, documentRevision_gone habsent] at hcurrent
          cases hcurrent
    | retryMemoryJob m errorKind error retryDelay =>
      have hid : m.documentId = id := Option.some_inj.mp hdocument
      simp only [Call.run]
      cases hretry : Storage.retryMemoryJob now m errorKind error retryDelay s.db with
      | error e => rfl
      | ok db' =>
        rcases retryMemoryJob_ok hretry with ⟨_, rfl⟩ | ⟨hcurrent, _⟩
        · exact updateJobs_gone (hmemoryRow rfl hid) fun _ hguard => hguard.1
        · rw [hid, documentRevision_gone habsent] at hcurrent
          cases hcurrent
    | reconcileMemories batch expectedRevision completion proposals =>
      have hid : batch.documentId = id := Option.some_inj.mp hdocument
      refine commit_refused fun p hok => ?_
      cases hreconcile : reconcileMemoriesFor env now batch expectedRevision (completion.map (·.id)) proposals s.db with
      | error e =>
        rw [hreconcile] at hok
        cases hok
      | ok r =>
        obtain ⟨d, hd, hdid, _⟩ := reconcileMemoriesFor_ok hreconcile
        exact habsent d hd (hdid.trans hid)
    | upsertDocument | claimJob | deleteDocument | claimMemoryJob | forgetMemory | openStorage => cases hdocument

end Storage
