-- SUMMARY: Organizations do not see each other: calls for one leave what another one has, and what it reads, as it was.
import Supermemory.Library.Restriction
import Supermemory.Storage.Integrity
import Supermemory.Storage.MemorySearch
import Supermemory.Storage.Profiles
import Supermemory.Storage.Search

/-!
# Tenancy

All organizations share the tables, and rows are told apart by a column, a join, or the
identifier of another row. What an organization has is defined by restricting every table.
Calls for other organizations leave the restriction as it is, and queries for the
organization give the same answers on the restriction as on the whole store.
-/

namespace Storage

variable {env : Env} {now : Time} {mine : String → Prop} {db db' : Database} {orgId : String}

namespace Database

/-- A document of the organization. -/
def HasDocument (db : Database) (orgId id : String) : Prop := ∃ d ∈ db.documents.rows, d.id = id ∧ d.orgId = orgId

/-- A chunk of a document of the organization. -/
def HasChunk (db : Database) (orgId : String) (id : Nat) : Prop :=
  ∃ c ∈ db.chunks.rows, c.id = id ∧ db.HasDocument orgId c.documentId

/-- A memory of the organization. -/
def HasMemory (db : Database) (orgId id : String) : Prop := ∃ m ∈ db.memories.rows, m.id = id ∧ m.orgId = orgId

instance (db : Database) (orgId id : String) : Decidable (db.HasDocument orgId id) :=
  inferInstanceAs (Decidable (∃ d ∈ _, _))

instance (db : Database) (orgId : String) (id : Nat) : Decidable (db.HasChunk orgId id) :=
  inferInstanceAs (Decidable (∃ c ∈ _, _))

instance (db : Database) (orgId id : String) : Decidable (db.HasMemory orgId id) :=
  inferInstanceAs (Decidable (∃ m ∈ _, _))

/-- What an organization has: its documents with their jobs, chunks and vectors, and its memories with
    their sources, relations and vectors. -/
def ownPart (orgId : String) (db : Database) : Database where
  organizations := ∅
  documents := db.documents.only fun d => d.orgId = orgId
  jobs := db.jobs.only fun j => db.HasDocument orgId j.documentId
  chunks := db.chunks.only fun c => db.HasDocument orgId c.documentId
  chunkEmbeddings := db.chunkEmbeddings.only fun e => db.HasChunk orgId e.chunkId
  memories := db.memories.only fun m => m.orgId = orgId
  memorySources := db.memorySources.only fun r => db.HasMemory orgId r.memoryId
  memoryRelations := db.memoryRelations.only fun r => db.HasMemory orgId r.childId
  memoryEmbeddings := db.memoryEmbeddings.only fun e => db.HasMemory orgId e.memoryId
  idsDrawn := 0

end Database

open Database

-- ---------------------------------------------------------------------------
-- Statements
-- ---------------------------------------------------------------------------

/-- No row of the organization changes, comes or goes. -/
structure OwnKept (orgId : String) (db db' : Database) : Prop where
  documents : (db'.documents.only fun d => d.orgId = orgId) = db.documents.only fun d => d.orgId = orgId := by rfl
  jobs : (db'.jobs.only fun j => db.HasDocument orgId j.documentId) =
    db.jobs.only fun j => db.HasDocument orgId j.documentId := by rfl
  chunks : (db'.chunks.only fun c => db.HasDocument orgId c.documentId) =
    db.chunks.only fun c => db.HasDocument orgId c.documentId := by rfl
  chunkEmbeddings : (db'.chunkEmbeddings.only fun e => db.HasChunk orgId e.chunkId) =
    db.chunkEmbeddings.only fun e => db.HasChunk orgId e.chunkId := by rfl
  memories : (db'.memories.only fun m => m.orgId = orgId) = db.memories.only fun m => m.orgId = orgId := by rfl
  memorySources : (db'.memorySources.only fun r => db.HasMemory orgId r.memoryId) =
    db.memorySources.only fun r => db.HasMemory orgId r.memoryId := by rfl
  memoryRelations : (db'.memoryRelations.only fun r => db.HasMemory orgId r.childId) =
    db.memoryRelations.only fun r => db.HasMemory orgId r.childId := by rfl
  memoryEmbeddings : (db'.memoryEmbeddings.only fun e => db.HasMemory orgId e.memoryId) =
    db.memoryEmbeddings.only fun e => db.HasMemory orgId e.memoryId := by rfl

theorem hasDocument_only {id : String} : db.HasDocument orgId id ↔
    ∃ d ∈ db.documents.only fun d => d.orgId = orgId, d.id = id := by
  simp only [HasDocument, Table.mem_only, Table.mem_rows]
  constructor
  · rintro ⟨d, hd, hid, horg⟩
    exact ⟨d, ⟨hd, horg⟩, hid⟩
  · rintro ⟨d, ⟨hd, horg⟩, hid⟩
    exact ⟨d, hd, hid, horg⟩

theorem hasChunk_only {id : Nat} : db.HasChunk orgId id ↔
    ∃ c ∈ db.chunks.only fun c => db.HasDocument orgId c.documentId, c.id = id := by
  simp only [HasChunk, Table.mem_only, Table.mem_rows]
  constructor
  · rintro ⟨c, hc, hid, hdocument⟩
    exact ⟨c, ⟨hc, hdocument⟩, hid⟩
  · rintro ⟨c, ⟨hc, hdocument⟩, hid⟩
    exact ⟨c, hc, hid, hdocument⟩

theorem hasMemory_only {id : String} : db.HasMemory orgId id ↔
    ∃ m ∈ db.memories.only fun m => m.orgId = orgId, m.id = id := by
  simp only [HasMemory, Table.mem_only, Table.mem_rows]
  constructor
  · rintro ⟨m, hm, hid, horg⟩
    exact ⟨m, ⟨hm, horg⟩, hid⟩
  · rintro ⟨m, ⟨hm, horg⟩, hid⟩
    exact ⟨m, hm, hid, horg⟩

theorem OwnKept.ownPart (h : OwnKept orgId db db') : db'.ownPart orgId = db.ownPart orgId := by
  have hdocument (id : String) : db'.HasDocument orgId id ↔ db.HasDocument orgId id := by
    rw [hasDocument_only, hasDocument_only, h.documents]
  have hchunks : (db'.chunks.only fun c => db'.HasDocument orgId c.documentId) =
      db.chunks.only fun c => db.HasDocument orgId c.documentId :=
    (Table.only_congr fun c _ => hdocument c.documentId).trans h.chunks
  have hchunk (id : Nat) : db'.HasChunk orgId id ↔ db.HasChunk orgId id := by
    rw [hasChunk_only, hasChunk_only, hchunks]
  have hmemory (id : String) : db'.HasMemory orgId id ↔ db.HasMemory orgId id := by
    rw [hasMemory_only, hasMemory_only, h.memories]
  simp only [Database.ownPart, Database.mk.injEq]
  refine ⟨trivial, h.documents, ?_, hchunks, ?_, h.memories, ?_, ?_, ?_, trivial⟩
  · exact (Table.only_congr fun j _ => hdocument j.documentId).trans h.jobs
  · exact (Table.only_congr fun e _ => hchunk e.chunkId).trans h.chunkEmbeddings
  · exact (Table.only_congr fun r _ => hmemory r.memoryId).trans h.memorySources
  · exact (Table.only_congr fun r _ => hmemory r.childId).trans h.memoryRelations
  · exact (Table.only_congr fun e _ => hmemory e.memoryId).trans h.memoryEmbeddings

/-- A document that the call owns is not a document of an organization that it does not act for. -/
theorem Owned.not_has {id : String} (h : Owned mine db id) (hother : ¬ mine orgId) : ¬ db.HasDocument orgId id := by
  rintro ⟨d, hd, hid, rfl⟩
  exact hother (h d hd hid)

theorem not_hasMemory {m : Memory} (hm : m ∈ db.memories) (hother : m.orgId ≠ orgId) : ¬ db.HasMemory orgId m.id := by
  rintro ⟨m', hm', hid, horg⟩
  rw [Table.eq_of_key hm' hm hid] at horg
  exact hother horg

/-- A statement that acts for other organizations leaves what the organization has as it was. -/
theorem Statement.ownKept (h : Statement env now mine db db') (hdb : Integrity db) (hother : ¬ mine orgId) :
    OwnKept orgId db db' := by
  have hne {id : String} (hmine : mine id) : id ≠ orgId := fun heq => hother (heq ▸ hmine)
  cases h with
  | drawId => exact {}
  | insertOrganization => exact {}
  | insertDocument _ hmine _ _ hinsert => exact { documents := Table.only_insert hinsert (hne hmine) }
  | @updateDocuments p _ f hf hbecomes =>
    have hkept : ((db.documents.update p f hf).only fun d => d.orgId = orgId) =
        db.documents.only fun d => d.orgId = orgId := by
      apply Table.only_update
      intro d hd hguard
      obtain ⟨hmine, hbecomes⟩ := hbecomes d hd hguard
      exact ⟨hne hmine, hbecomes.orgId ▸ hne hmine⟩
    exact { documents := hkept }
  | @deleteDocument id hmine =>
    have hnot := hmine.not_has hother
    exact {
      documents := Table.only_delete fun d hd hid horg => hnot ⟨d, hd, hid, horg⟩
      jobs := Table.only_delete fun j _ hid hhas => hnot (hid ▸ hhas)
      chunks := Table.only_delete fun c _ hid hhas => hnot (hid ▸ hhas)
      chunkEmbeddings := by
        apply Table.only_delete
        rintro e _ ⟨c, hc, hcid, hid⟩ ⟨c', hc', hcid', hhas⟩
        rw [Table.eq_of_key hc' hc (hcid'.trans hcid.symm), hid] at hhas
        exact hnot hhas
      memorySources := by
        apply Table.only_delete
        rintro r hr hid ⟨m', hm', hmid', horg'⟩
        obtain ⟨m, hm, d, hd, hmid, hdid, horg⟩ := hdb.source r hr
        rw [Table.eq_of_key hm' hm (hmid'.trans hmid.symm)] at horg'
        exact hnot ⟨d, hd, hdid.trans hid, horg.symm.trans horg'⟩ }
  | insertJob hmine hdocument hjob =>
    obtain ⟨_, jobs, hinsert, rfl⟩ := insertJob_ok hjob
    exact { jobs := Table.only_insert hinsert (hmine.not_has hother) }
  | @updateJobs p _ f hf hbecomes =>
    have hkept : ((db.jobs.update p f hf).only fun j => db.HasDocument orgId j.documentId) =
        db.jobs.only fun j => db.HasDocument orgId j.documentId := by
      apply Table.only_update
      intro j hj hguard
      obtain ⟨hmine, hbecomes⟩ := hbecomes j hj hguard
      exact ⟨hmine.not_has hother, hbecomes.same.2.1.symm ▸ hmine.not_has hother⟩
    exact { jobs := hkept }
  | @deleteChunks documentId hmine =>
    have hnot := hmine.not_has hother
    exact {
      chunks := Table.only_delete fun c _ hid hhas => hnot (hid ▸ hhas)
      chunkEmbeddings := by
        apply Table.only_delete
        rintro e _ ⟨c, hc, hcid, hid⟩ ⟨c', hc', hcid', hhas⟩
        rw [Table.eq_of_key hc' hc (hcid'.trans hcid.symm), hid] at hhas
        exact hnot hhas }
  | insertChunk hmine _ hchunk =>
    obtain ⟨chunks, hinsert, rfl⟩ := insertChunk_inserts hchunk
    exact { chunks := Table.only_insert hinsert (hmine.not_has hother) }
  | @insertChunkEmbedding db' c _ _ _ hc hmine hembed =>
    obtain ⟨_, chunkEmbeddings, hinsert, rfl⟩ := insertChunkEmbedding_inserts hembed
    refine { chunkEmbeddings := Table.only_insert hinsert ?_ }
    rintro ⟨c', hc', hcid', hhas⟩
    rw [Table.eq_of_key hc' hc hcid'] at hhas
    exact hmine.not_has hother hhas
  | insertMemory hmine _ _ _ hinsert => exact { memories := Table.only_insert hinsert (hne hmine) }
  | @updateMemories p _ f hf hbecomes =>
    have hkept : ((db.memories.update p f hf).only fun m => m.orgId = orgId) =
        db.memories.only fun m => m.orgId = orgId := by
      apply Table.only_update
      intro m hm hguard
      obtain ⟨hmine, hbecomes⟩ := hbecomes m hm hguard
      exact ⟨hne hmine, hbecomes.profile.1.symm ▸ hne hmine⟩
    exact { memories := hkept }
  | insertSource hm _ _ hmine hinsert =>
    exact { memorySources := Table.only_insert hinsert (not_hasMemory hm (hne hmine)) }
  | @addRelation parent child relation _ hchild _ hmine =>
    unfold Storage.addRelation
    split
    · refine { memoryRelations := ?_ }
      cases hinsert : db.memoryRelations.insert ⟨parent.id, child.id, relation⟩ with
      | none => rfl
      | some memoryRelations => exact Table.only_insert hinsert (not_hasMemory hchild (hne hmine))
    · exact {}
  | insertMemoryEmbedding hm hmine hembed =>
    obtain ⟨_, memoryEmbeddings, hinsert, rfl⟩ := insertMemoryEmbedding_inserts hembed
    exact { memoryEmbeddings := Table.only_insert hinsert (not_hasMemory hm (hne hmine)) }
  | @deactivateVectors p _ hmine =>
    have hkept : ((db.memoryEmbeddings.update p deactivated).only fun e => db.HasMemory orgId e.memoryId) =
        db.memoryEmbeddings.only fun e => db.HasMemory orgId e.memoryId := by
      apply Table.only_update
      intro e he hguard
      have hnot : ¬ db.HasMemory orgId e.memoryId := by
        rintro ⟨m, hm, hid, rfl⟩
        exact hother (hmine e he hguard m hm hid)
      exact ⟨hnot, hnot⟩
    exact { memoryEmbeddings := hkept }

/-- A call that acts for other organizations leaves what the organization has as it was. -/
theorem Call.ownPart_kept {s : System} {call : Call} (hs : (machine env).Reachable s) (hissued : call.Issued s)
    (hother : ¬ call.ActsFor now s.db orgId) : (call.run env now s.db).2.ownPart orgId = s.db.ownPart orgId := by
  have hstatements : Statements env now (call.ActsFor now s.db) s.db (call.run env now s.db).2 :=
    Call.statements (consistent_of_reachable hs) hissued
  refine (hstatements.invariant (I := fun db => Integrity db ∧ db.ownPart orgId = s.db.ownPart orgId) ?_
    ⟨integrity_of_reachable hs, rfl⟩).2
  intro db db' hdb hstatement
  exact ⟨hstatement.integrity hdb.1, (hstatement.ownKept hdb.1 hother).ownPart.trans hdb.2⟩

-- ---------------------------------------------------------------------------
-- Queries
-- ---------------------------------------------------------------------------

section Documents

variable (db) (orgId)

theorem findIdentifier_ownPart (identifier : String) :
    findIdentifier (db.ownPart orgId) orgId identifier = findIdentifier db orgId identifier := by
  unfold findIdentifier
  simp only [Database.ownPart]
  rw [Table.filter_only]
  intro d _ hguard
  simp only [decide_eq_true_eq] at hguard
  exact hguard.1

/-- An upsert finds the document that it would find if the organization were alone. -/
theorem findExisting_ownPart (input : UpsertDocument) (hash : String) :
    findExisting (db.ownPart orgId) orgId input hash = findExisting db orgId input hash := by
  unfold findExisting
  split
  · apply Table.find?_only
    intro d _ hguard
    simp only [decide_eq_true_eq] at hguard
    exact hguard.1
  · apply Table.find?_only
    intro d _ hguard
    simp only [decide_eq_true_eq] at hguard
    exact hguard.1.1

variable {db} {orgId}

theorem chunkRows_ownPart {d : Document} (hd : d ∈ db.documents) (horg : d.orgId = orgId) :
    chunkRows (db.ownPart orgId) d.id = chunkRows db d.id := by
  apply Table.filter_only
  intro c _ hguard
  simp only [decide_eq_true_eq] at hguard
  exact ⟨d, hd, hguard.symm, horg⟩

theorem documentChunksFor_ownPart (db : Database) (identifier : String) :
    documentChunksFor orgId identifier (db.ownPart orgId) = documentChunksFor orgId identifier db := by
  unfold documentChunksFor
  rw [findIdentifier_ownPart]
  cases hfind : findIdentifier db orgId identifier with
  | none => rfl
  | some d =>
    obtain ⟨hd, horg⟩ := findIdentifier_some hfind
    simp only [Option.map_some, chunkRows_ownPart hd horg]

theorem doneChunks_ownPart : doneChunks (db.ownPart orgId) orgId = doneChunks db orgId := by
  unfold doneChunks
  have hfind (id : String) : ((db.documents.only fun d => d.orgId = orgId).find id).filter
      (fun d => d.orgId = orgId ∧ d.status = .done) =
      (db.documents.find id).filter fun d => d.orgId = orgId ∧ d.status = .done := by
    rw [Table.find_only, Option.filter_filter]
    congr 1
    funext d
    by_cases horg : d.orgId = orgId <;> simp [horg]
  simp only [Database.ownPart, hfind]
  apply Table.filterMap_only
  intro c _ hsome
  obtain ⟨p, hp⟩ := Option.isSome_iff_exists.mp hsome
  obtain ⟨d, hd, _⟩ := Option.map_eq_some_iff.mp hp
  obtain ⟨hfound, hguard⟩ := Option.filter_eq_some_iff.mp hd
  obtain ⟨hmem, hid⟩ := Table.find_eq_some.mp hfound
  simp only [decide_eq_true_eq] at hguard
  exact ⟨d, hmem, hid, hguard.1⟩

theorem scored_congr {σ : Type*} {score score' : Chunk → Document → Option σ} {rows : List (Chunk × Document)}
    (h : ∀ c d, (c, d) ∈ rows → score c d = score' c d) : scored score rows = scored score' rows := by
  unfold scored
  apply List.filterMap_congr
  rintro ⟨c, d⟩ hrow
  simp only [h c d hrow]

/-- Semantic search over chunks. -/
theorem searchSemantic_ownPart (db : Database) {σ φ : Type*} [LinearOrder σ] (vectorDot : List (BitVec 8) → List (BitVec 8) → σ)
    (matchesMetadataFilter : Object → φ → Bool) (query : List F32) (modelId : String) (limit : Nat) (threshold : σ)
    (options : SearchOptions φ) :
    searchSemantic env vectorDot matchesMetadataFilter orgId query modelId limit threshold options
      (db.ownPart orgId) =
    searchSemantic env vectorDot matchesMetadataFilter orgId query modelId limit threshold options db := by
  unfold searchSemantic
  split
  · rfl
  · rw [doneChunks_ownPart]
    refine congrArg (fun rows => Except.ok (((List.insertionSort _ rows).take limit).map _)) (scored_congr ?_)
    intro c d hrow
    obtain ⟨hc, hd, hdocument, horg, _⟩ := mem_doneChunks.mp hrow
    have hvector : (db.ownPart orgId).chunkEmbeddings.find c.id = db.chunkEmbeddings.find c.id := by
      apply Table.find_only_of
      intro e _ hid
      exact ⟨c, hc, hid.symm, d, hd, hdocument, horg⟩
    simp only [hvector]

end Documents

section Memories

theorem memoryVector_ownPart {m : Memory} (hm : m ∈ db.memories) (horg : m.orgId = orgId) :
    (db.ownPart orgId).memoryEmbeddings.find m.id = db.memoryEmbeddings.find m.id := by
  apply Table.find_only_of
  intro e _ hid
  exact ⟨m, hm, hid.symm, horg⟩

theorem shownMemories_ownPart (containerTag : String) (visibility : MemoryVisibility) :
    shownMemories env now orgId containerTag visibility (db.ownPart orgId) =
      shownMemories env now orgId containerTag visibility db := by
  have hown : shownMemories env now orgId containerTag visibility (db.ownPart orgId) =
      db.memories.rows.filter fun m => m.orgId = orgId ∧ m.containerTag = containerTag ∧
        visibility.Shows env now m (hasActiveVector (db.ownPart orgId) m.id) := by
    apply Table.filter_only
    intro m _ hguard
    simp only [decide_eq_true_eq] at hguard
    exact hguard.1
  rw [hown]
  apply List.filter_congr
  intro m hm
  apply decide_eq_decide.mpr
  apply and_congr_right
  intro horg
  simp only [hasActiveVector, memoryVector_ownPart hm horg]

/-- Semantic search over memories. -/
theorem searchMemoryCandidates_ownPart (db : Database) {σ : Type*} [LinearOrder σ]
    (vectorDot : List (BitVec 8) → List (BitVec 8) → σ) (query : List F32) (modelId containerTag : String)
    (limit : Nat) (threshold : σ) (visibility : MemoryVisibility) :
    searchMemoryCandidates env now vectorDot orgId query modelId containerTag limit threshold visibility
      (db.ownPart orgId) =
    searchMemoryCandidates env now vectorDot orgId query modelId containerTag limit threshold visibility db := by
  unfold searchMemoryCandidates
  split
  · rfl
  · rw [shownMemories_ownPart]
    refine congrArg (fun rows => Except.ok (((List.insertionSort _ rows).take limit).map _))
      (List.filterMap_congr ?_)
    intro m hm
    obtain ⟨hmem, horg, _⟩ := mem_shownMemories.mp hm
    simp only [semanticScore, memoryVector_ownPart hmem horg]

/-- The memory that a request to forget finds. -/
theorem findForgettable_ownPart (db : Database) (id content : Option String) (containerTag : String) :
    findForgettable env now (db.ownPart orgId) orgId id content containerTag =
      findForgettable env now db orgId id content containerTag := by
  unfold findForgettable
  have hcandidates : ((db.ownPart orgId).memories.rows.filter fun m =>
        m.orgId = orgId ∧ m.containerTag = containerTag ∧ ¬ m.isForgotten ∧ Unexpired env now m) =
      db.memories.rows.filter fun m =>
        m.orgId = orgId ∧ m.containerTag = containerTag ∧ ¬ m.isForgotten ∧ Unexpired env now m := by
    apply Table.filter_only
    intro m _ hguard
    simp only [decide_eq_true_eq] at hguard
    exact hguard.1
  simp only [hcandidates]

/-- The memories that a reconciliation compares its proposals with. -/
theorem activeMemoryIdsByContent_ownPart (db : Database) (containerTag : String) :
    activeMemoryIdsByContent env (db.ownPart orgId) orgId containerTag =
      activeMemoryIdsByContent env db orgId containerTag := by
  unfold activeMemoryIdsByContent
  have hrows : ((db.ownPart orgId).memories.rows.filter fun m =>
        m.orgId = orgId ∧ m.containerTag = containerTag ∧ m.isLatest ∧ ¬ m.isForgotten) =
      db.memories.rows.filter fun m =>
        m.orgId = orgId ∧ m.containerTag = containerTag ∧ m.isLatest ∧ ¬ m.isForgotten := by
    apply Table.filter_only
    intro m _ hguard
    simp only [decide_eq_true_eq] at hguard
    exact hguard.1
  rw [hrows]

/-- An order of the rows that the rows of others do not change. -/
def ScanOrder.IsLocal (order : ScanOrder) : Prop :=
  ∀ (q : Memory → Bool) (rows : List Memory), order.scan (rows.filter q) = (order.scan rows).filter q

variable {order : ScanOrder} {containerTag : String}

theorem profileRows_ownPart (horder : order.IsLocal) (isStatic : Bool) :
    profileRows env now orgId containerTag isStatic (order.scan (db.ownPart orgId).memories.rows) =
      profileRows env now orgId containerTag isStatic (order.scan db.memories.rows) := by
  have hscan : order.scan (db.ownPart orgId).memories.rows =
      (order.scan db.memories.rows).filter fun m => m.orgId = orgId := horder _ _
  simp only [profileRows, hscan, List.filter_filter]
  apply List.filter_congr
  intro m _
  by_cases horg : m.orgId = orgId <;> simp [horg, InProfile]

/-- The sources of a memory that the organization has. -/
theorem staticKey_ownPart {m : Memory} (hm : m ∈ db.memories) (horg : m.orgId = orgId) :
    staticKey (db.ownPart orgId) m = staticKey db m := by
  have hcount : (db.ownPart orgId).memorySources.rows.countP (fun source => source.memoryId = m.id) =
      db.memorySources.rows.countP fun source => source.memoryId = m.id := by
    apply Table.countP_only
    intro r _ hguard
    simp only [decide_eq_true_eq] at hguard
    exact ⟨m, hm, hguard.symm, horg⟩
  unfold staticKey
  rw [hcount]

theorem staticProfileFor_ownPart (db : Database) (horder : order.IsLocal) :
    staticProfileFor env now order orgId containerTag (db.ownPart orgId) =
      staticProfileFor env now order orgId containerTag db := by
  unfold staticProfileFor profileQuery
  rw [profileRows_ownPart horder]
  have hsort : ((profileRows env now orgId containerTag true (order.scan db.memories.rows)).insertionSort
        fun a b => staticKey (db.ownPart orgId) a ≤ staticKey (db.ownPart orgId) b) =
      (profileRows env now orgId containerTag true (order.scan db.memories.rows)).insertionSort
        fun a b => staticKey db a ≤ staticKey db b := by
    have hkey : ∀ m ∈ profileRows env now orgId containerTag true (order.scan db.memories.rows),
        staticKey (db.ownPart orgId) m = staticKey db m := by
      intro m hm
      obtain ⟨hscanned, hguard⟩ := List.mem_filter.mp hm
      simp only [decide_eq_true_eq] at hguard
      exact staticKey_ownPart ((order.perm db.memories.rows).mem_iff.mp hscanned) hguard.2.1
    have hmap := List.map_insertionSort (s := fun a b => staticKey db a ≤ staticKey db b) id
      (profileRows env now orgId containerTag true (order.scan db.memories.rows))
      (r := fun a b => staticKey (db.ownPart orgId) a ≤ staticKey (db.ownPart orgId) b) ?_
    · simpa only [List.map_id] using hmap
    · intro a ha b hb
      rw [hkey a ha, hkey b hb, id, id]
  rw [hsort]

theorem dynamicProfileFor_ownPart (db : Database) (horder : order.IsLocal) (staticMemories : List MemoryRecord) :
    dynamicProfileFor env now order orgId containerTag staticMemories (db.ownPart orgId) =
      dynamicProfileFor env now order orgId containerTag staticMemories db := by
  unfold dynamicProfileFor profileQuery
  rw [profileRows_ownPart horder]

/-! ## Context -/

theorem memory_ownPart {id : String} (hhas : db.HasMemory orgId id) :
    (db.ownPart orgId).memories.find id = db.memories.find id := by
  obtain ⟨m', hm', hid', horg'⟩ := hhas
  apply Table.find_only_of
  intro m hm hid
  rw [Table.eq_of_key hm hm' (hid.trans hid'.symm)]
  exact horg'

/-- The relations of a memory of the organization join it to memories of the organization. -/
theorem relationHits_ownPart {owner related : MemoryRelation → String} {id : String}
    (hjoins : ∀ r ∈ db.memoryRelations, owner r = id →
      db.HasMemory orgId r.childId ∧ db.HasMemory orgId (related r)) :
    relationHits owner related (db.ownPart orgId) id = relationHits owner related db id := by
  have hrows : ((db.ownPart orgId).memoryRelations.rows.filter fun r => owner r = id) =
      db.memoryRelations.rows.filter fun r => owner r = id := by
    apply Table.filter_only
    intro r hr hguard
    simp only [decide_eq_true_eq] at hguard
    exact (hjoins r hr hguard).1
  have hmemories : ((db.memoryRelations.rows.filter fun r => owner r = id).filterMap fun r =>
        ((db.ownPart orgId).memories.find (related r)).map fun m => (r, m)) =
      (db.memoryRelations.rows.filter fun r => owner r = id).filterMap fun r =>
        (db.memories.find (related r)).map fun m => (r, m) := by
    apply List.filterMap_congr
    intro r hr
    obtain ⟨hmem, hguard⟩ := List.mem_filter.mp hr
    simp only [decide_eq_true_eq] at hguard
    rw [memory_ownPart (hjoins r hmem hguard).2]
  simp only [relationHits, hrows, hmemories]

theorem sourceDocuments_ownPart (hdb : Integrity db) (columns : ContextColumns) {id : String}
    (hhas : db.HasMemory orgId id) :
    sourceDocuments columns (db.ownPart orgId) id = sourceDocuments columns db id := by
  have hrows : ((db.ownPart orgId).memorySources.rows.filter fun source => source.memoryId = id) =
      db.memorySources.rows.filter fun source => source.memoryId = id := by
    apply Table.filter_only
    intro r _ hguard
    simp only [decide_eq_true_eq] at hguard
    rw [hguard]
    exact hhas
  have hdocuments : ((db.memorySources.rows.filter fun source => source.memoryId = id).filterMap fun source =>
        ((db.ownPart orgId).documents.find source.documentId).map fun d => (source, d)) =
      (db.memorySources.rows.filter fun source => source.memoryId = id).filterMap fun source =>
        (db.documents.find source.documentId).map fun d => (source, d) := by
    apply List.filterMap_congr
    intro r hr
    obtain ⟨hmem, hguard⟩ := List.mem_filter.mp hr
    simp only [decide_eq_true_eq] at hguard
    obtain ⟨m, hm, d, hd, hmid, hdid, horg⟩ := hdb.source r hmem
    obtain ⟨m', hm', hid', horg'⟩ := hhas
    have hfind : (db.ownPart orgId).documents.find r.documentId = db.documents.find r.documentId := by
      apply Table.find_only_of
      intro d' hd' hdid'
      rw [Table.eq_of_key hd' hd (hdid'.trans hdid.symm), ← horg,
        Table.eq_of_key hm hm' (hmid.trans (hguard.trans hid'.symm))]
      exact horg'
    rw [hfind]
  simp only [sourceDocuments, hrows, hdocuments]

theorem hydrateMemoryHit_ownPart {σ : Type*} (hdb : Integrity db) (columns : ContextColumns)
    (hydration : MemoryHydration) {hit : MemorySearchHit σ} (hhas : db.HasMemory orgId hit.record.id) :
    hydrateMemoryHit columns hydration (db.ownPart orgId) hit = hydrateMemoryHit columns hydration db hit := by
  obtain ⟨m, hm, hid, horg⟩ := hhas
  have hprofile {p c : Memory} (hp : p ∈ db.memories) (hc : c ∈ db.memories) (hsame : SameProfile p c)
      (hone : p.id = hit.record.id ∨ c.id = hit.record.id) :
      db.HasMemory orgId p.id ∧ db.HasMemory orgId c.id := by
    have hown : p.orgId = orgId ∧ c.orgId = orgId := by
      cases hone with
      | inl hpid =>
        have hporg : p.orgId = orgId := Table.eq_of_key hp hm (hpid.trans hid.symm) ▸ horg
        exact ⟨hporg, hsame.1.symm.trans hporg⟩
      | inr hcid =>
        have hcorg : c.orgId = orgId := Table.eq_of_key hc hm (hcid.trans hid.symm) ▸ horg
        exact ⟨hsame.1.trans hcorg, hcorg⟩
    exact ⟨⟨p, hp, rfl, hown.1⟩, ⟨c, hc, rfl, hown.2⟩⟩
  have hparents : relationHits (·.childId) (·.parentId) (db.ownPart orgId) hit.record.id =
      relationHits (·.childId) (·.parentId) db hit.record.id := by
    apply relationHits_ownPart
    intro r hr hchild
    obtain ⟨_, p, hp, c, hc, hpid, hcid, hsame⟩ := hdb.relation r hr
    rw [← hpid, ← hcid]
    exact (hprofile hp hc hsame (.inr (hcid.trans hchild))).symm
  have hchildren : relationHits (·.parentId) (·.childId) (db.ownPart orgId) hit.record.id =
      relationHits (·.parentId) (·.childId) db hit.record.id := by
    apply relationHits_ownPart
    intro r hr hparent
    obtain ⟨_, p, hp, c, hc, hpid, hcid, hsame⟩ := hdb.relation r hr
    have hboth := hprofile hp hc hsame (.inl (hpid.trans hparent))
    rw [← hcid]
    exact ⟨hboth.2, hboth.2⟩
  have hown : db.HasMemory orgId hit.record.id := ⟨m, hm, hid, horg⟩
  have hsources := sourceDocuments_ownPart hdb columns hown
  simp only [hydrateMemoryHit, hparents, hchildren, hsources]

theorem hydrateMemoryHits_ownPart {σ : Type*} (hdb : Integrity db) (columns : ContextColumns)
    (hydration : MemoryHydration) {hits : List (MemorySearchHit σ)}
    (hhas : ∀ hit ∈ hits, db.HasMemory orgId hit.record.id) :
    hydrateMemoryHits columns hydration (db.ownPart orgId) hits = hydrateMemoryHits columns hydration db hits := by
  induction hits with
  | nil => rfl
  | cons hit rest ih =>
    rw [hydrateMemoryHits, hydrateMemoryHits, ih fun h hmem => hhas h (List.mem_cons_of_mem hit hmem),
      hydrateMemoryHit_ownPart hdb columns hydration (hhas hit List.mem_cons_self)]

/-- Hits of an organization's memories are hydrated from what the organization has. -/
theorem hydrateMemories_ownPart {σ : Type*} [Zero σ] (hdb : Integrity db) (columns : ContextColumns)
    (candidates : List (MemoryCandidate σ)) (hydration : MemoryHydration)
    (hhas : ∀ k ∈ candidates, db.HasMemory orgId k.id) :
    hydrateMemories columns candidates hydration (db.ownPart orgId) =
      hydrateMemories columns candidates hydration db := by
  unfold hydrateMemories
  have hfound : (candidates.filterMap fun candidate => ((db.ownPart orgId).memories.find candidate.id).map fun m =>
        ({ record := readMemory m, similarity := memoryScore candidates m.id, parents := [], children := [],
           related := [], documents := [] } : MemorySearchHit σ)) =
      candidates.filterMap fun candidate => (db.memories.find candidate.id).map fun m =>
        { record := readMemory m, similarity := memoryScore candidates m.id, parents := [], children := [],
          related := [], documents := [] } := by
    apply List.filterMap_congr
    intro k hk
    rw [memory_ownPart (hhas k hk)]
  rw [hfound]
  apply hydrateMemoryHits_ownPart hdb
  intro hit hhit
  obtain ⟨k, hk, hmap⟩ := List.mem_filterMap.mp hhit
  obtain ⟨m, hfind, rfl⟩ := Option.map_eq_some_iff.mp hmap
  obtain ⟨_, hid⟩ := Table.find_eq_some.mp hfind
  have hown : db.HasMemory orgId m.id := hid.symm ▸ hhas k hk
  exact hown

end Memories

-- ---------------------------------------------------------------------------
-- Isolation
-- ---------------------------------------------------------------------------

/-- The organization gets the same answers from two stores. A full-text query is not among them: the rank
    of a row in the index depends on every row. -/
structure ReadsAlike (env : Env) (orgId : String) (db db' : Database) : Prop where
  chunks : ∀ identifier, documentChunksFor orgId identifier db' = documentChunksFor orgId identifier db
  existing : ∀ input hash, findExisting db' orgId input hash = findExisting db orgId input hash
  forgettable : ∀ now id content containerTag,
    findForgettable env now db' orgId id content containerTag = findForgettable env now db orgId id content containerTag
  contents : ∀ containerTag,
    activeMemoryIdsByContent env db' orgId containerTag = activeMemoryIdsByContent env db orgId containerTag
  staticProfile : ∀ now (order : ScanOrder) containerTag, order.IsLocal →
    staticProfileFor env now order orgId containerTag db' = staticProfileFor env now order orgId containerTag db
  dynamicProfile : ∀ now (order : ScanOrder) containerTag staticMemories, order.IsLocal →
    dynamicProfileFor env now order orgId containerTag staticMemories db' =
      dynamicProfileFor env now order orgId containerTag staticMemories db
  passages : ∀ {σ φ : Type} [LinearOrder σ] (vectorDot : List (BitVec 8) → List (BitVec 8) → σ)
    (matchesMetadataFilter : Object → φ → Bool) query modelId limit threshold options,
    searchSemantic env vectorDot matchesMetadataFilter orgId query modelId limit threshold options db' =
      searchSemantic env vectorDot matchesMetadataFilter orgId query modelId limit threshold options db
  candidates : ∀ {σ : Type} [LinearOrder σ] now (vectorDot : List (BitVec 8) → List (BitVec 8) → σ) query modelId
    containerTag limit threshold visibility,
    searchMemoryCandidates env now vectorDot orgId query modelId containerTag limit threshold visibility db' =
      searchMemoryCandidates env now vectorDot orgId query modelId containerTag limit threshold visibility db
  memories : ∀ {σ : Type} [Zero σ] columns (candidates : List (MemoryCandidate σ)) hydration,
    (∀ k ∈ candidates, db.HasMemory orgId k.id) →
      hydrateMemories columns candidates hydration db' = hydrateMemories columns candidates hydration db

theorem readsAlike_of_ownPart (hdb : Integrity db) (hdb' : Integrity db')
    (h : db'.ownPart orgId = db.ownPart orgId) : ReadsAlike env orgId db db' where
  chunks identifier := by
    rw [← documentChunksFor_ownPart db', h, documentChunksFor_ownPart]
  existing input hash := by
    rw [← findExisting_ownPart db', h, findExisting_ownPart]
  forgettable now id content containerTag := by
    rw [← findForgettable_ownPart db', h, findForgettable_ownPart]
  contents containerTag := by
    rw [← activeMemoryIdsByContent_ownPart db', h, activeMemoryIdsByContent_ownPart]
  staticProfile now order containerTag horder := by
    rw [← staticProfileFor_ownPart db' horder, h, staticProfileFor_ownPart db horder]
  dynamicProfile now order containerTag staticMemories horder := by
    rw [← dynamicProfileFor_ownPart db' horder, h, dynamicProfileFor_ownPart db horder]
  passages vectorDot matchesMetadataFilter query modelId limit threshold options := by
    rw [← searchSemantic_ownPart db', h, searchSemantic_ownPart]
  candidates now vectorDot query modelId containerTag limit threshold visibility := by
    rw [← searchMemoryCandidates_ownPart db', h, searchMemoryCandidates_ownPart]
  memories columns candidates hydration hhas := by
    have hhas' : ∀ k ∈ candidates, db'.HasMemory orgId k.id := by
      intro k hk
      have hown : (db'.memories.only fun m => m.orgId = orgId) = db.memories.only fun m => m.orgId = orgId :=
        congrArg Database.memories h
      rw [hasMemory_only, hown, ← hasMemory_only]
      exact hhas k hk
    rw [← hydrateMemories_ownPart hdb' columns candidates hydration hhas', h,
      hydrateMemories_ownPart hdb columns candidates hydration hhas]

/-- An empty store with two organizations. -/
def twoOrganizations : System :=
  ⟨⟨⟨[⟨"a", "first"⟩, ⟨"b", "second"⟩], by decide⟩, ∅, ∅, ∅, ∅, ∅, ∅, ∅, ∅, 0⟩, [], [], []⟩

end Storage
