-- SUMMARY: What each step of a legacy import changes: which rows it inserts, and which tables it leaves alone.
import Supermemory.Storage.Effects
import Supermemory.Storage.Legacy

/-!
# Steps of an import

Each loop of an import writes to one table, or to a table and its vectors.
-/

namespace Storage

variable {env : Env} {importer : Importer} {now : Time} {s s' : Import} {ldb ldb' : LegacyDatabase} {row : Object}

theorem field_ok {row : Object} {key text : String} (h : field row key = .ok text) :
    optionalField row key = some text := by
  unfold field at h
  split at h
  · cases h
  · rename_i hfield
    cases h
    exact hfield

-- ---------------------------------------------------------------------------
-- Inserts
-- ---------------------------------------------------------------------------

section Organizations

variable {localOrgId : String}

theorem renameOrganization_ok {id slug : String} (h : renameOrganization localOrgId id slug ldb = .ok ldb') :
    ldb' = { ldb with
      organizations := ldb.organizations.update (Yields ldb.toDatabase localOrgId id slug)
        (fun o => { o with slug := markedSlug o }) } := by
  unfold renameOrganization at h
  split at h
  · cases h
  · cases h
    rfl

theorem mem_renameOrganization {id slug : String} {o : Organization}
    (h : renameOrganization localOrgId id slug ldb = .ok ldb') : o ∈ ldb'.organizations ↔
      ∃ r ∈ ldb.organizations,
        o = if Yields ldb.toDatabase localOrgId id slug r then { r with slug := markedSlug r } else r := by
  have hmem : o ∈ ldb.organizations.update (Yields ldb.toDatabase localOrgId id slug)
      (fun o => { o with slug := markedSlug o }) ↔ _ := Table.mem_update
  rw [renameOrganization_ok h]
  exact hmem

theorem insertOrganization_some {o : Organization} (h : insertOrganization ldb o = some ldb') :
    (∀ p ∈ ldb.organizations, p.slug ≠ o.slug) ∧ ∃ organizations,
      ldb.organizations.insert o = some organizations ∧ ldb' = { ldb with organizations } := by
  unfold insertOrganization at h
  split at h
  · cases h
  · rename_i hfree
    obtain ⟨organizations, hinsert, rfl⟩ := Option.map_eq_some_iff.mp h
    exact ⟨fun p hp hslug => hfree ⟨p, hp, hslug⟩, organizations, hinsert, rfl⟩

end Organizations

theorem insertSpace_some {space : Space} (h : insertSpace ldb space = .ok (some ldb')) :
    ∃ spaces, ldb.spaces.insert space = some spaces ∧ ldb' = { ldb with spaces } := by
  unfold insertSpace at h
  split at h
  · cases h
  · split at h
    · cases h
    · rename_i spaces hinsert
      split at h
      · cases h
        exact ⟨spaces, hinsert, rfl⟩
      · cases h

theorem insertDocument_some {d : Document} (h : insertDocument ldb d = .ok (some ldb')) :
    ∃ documents, ldb.documents.insert d = some documents ∧ ldb' = { ldb with documents } := by
  unfold insertDocument at h
  split at h
  · cases h
  · rename_i documents hinsert
    split at h
    · cases h
      exact ⟨documents, hinsert, rfl⟩
    · cases h

theorem insertDocument_none {d : Document} (h : insertDocument ldb d = .ok none) : ldb.hasDocument d.id := by
  unfold insertDocument at h
  split at h
  · rename_i hnone
    exact Table.insert_eq_none.mp hnone
  · split at h
    · cases h
    · cases h

theorem insertMemoryOrIgnore_none {m : Memory} (h : insertMemoryOrIgnore ldb m = .ok none) : ldb.hasMemory m.id := by
  unfold insertMemoryOrIgnore at h
  split at h
  · rename_i hnone
    exact Table.insert_eq_none.mp hnone
  · split at h
    · cases h
    · cases h

theorem insertMemoryOrIgnore_some {m : Memory} (h : insertMemoryOrIgnore ldb m = .ok (some ldb')) :
    ∃ memories, ldb.memories.insert m = some memories ∧ ldb' = { ldb with memories } := by
  unfold insertMemoryOrIgnore at h
  split at h
  · cases h
  · rename_i memories hinsert
    split at h
    · cases h
      exact ⟨memories, hinsert, rfl⟩
    · cases h

theorem insertApiKey_none {key : ApiKey} (h : insertApiKey ldb key = .ok none) :
    ∃ stored ∈ ldb.apiKeys, stored.id = key.id := by
  unfold insertApiKey at h
  split at h
  · rename_i hnone
    exact Table.insert_eq_none.mp hnone
  · split at h
    · cases h
    · cases h

theorem insertApiKey_some {key : ApiKey} (h : insertApiKey ldb key = .ok (some ldb')) :
    ∃ apiKeys, ldb.apiKeys.insert key = some apiKeys ∧ ldb' = { ldb with apiKeys } := by
  unfold insertApiKey at h
  split at h
  · cases h
  · rename_i apiKeys hinsert
    split at h
    · cases h
      exact ⟨apiKeys, hinsert, rfl⟩
    · cases h

theorem insertChunk_inserts {documentId content stableId : String} {ordinal chunkId : Nat} {db db' : Database}
    (h : insertChunk db documentId ordinal content stableId = .ok (chunkId, db')) :
    ∃ chunks, db.chunks.insert ⟨chunkId, documentId, ordinal, content, stableId⟩ = some chunks ∧
      db' = { db with chunks } := by
  unfold insertChunk at h
  simp only at h
  split at h
  · cases h
  · split at h
    · cases h
    · rename_i chunks hinsert
      cases h
      exact ⟨chunks, hinsert, rfl⟩

-- ---------------------------------------------------------------------------
-- Tables
-- ---------------------------------------------------------------------------

theorem importOrganization_db {localOrgId : String} (h : importOrganization localOrgId s row = .ok s') :
    ∃ organizations, s'.db = { s.db with organizations } := by
  simp only [importOrganization, Loop.bind_ok] at h
  obtain ⟨_, _, _, _, dbr, hrename, _, _, h⟩ := h
  obtain rfl := renameOrganization_ok hrename
  split at h
  · cases h
    exact ⟨_, rfl⟩
  · rename_i hinsert
    obtain ⟨_, _, _, rfl⟩ := insertOrganization_some hinsert
    cases h
    exact ⟨_, rfl⟩

theorem importSpace_db (h : importSpace s row = .ok s') : ∃ spaces, s'.db = { s.db with spaces } := by
  simp only [importSpace, Loop.bind_ok] at h
  obtain ⟨_, _, _, _, _, _, _, _, _, _, inserted, hinsert, h⟩ := h
  split at h
  · cases h
    exact ⟨_, rfl⟩
  · obtain ⟨_, _, rfl⟩ := insertSpace_some hinsert
    cases h
    exact ⟨_, rfl⟩

theorem importDocument_db (h : importDocument importer s row = .ok s') :
    ∃ documents, s'.db = { s.db with documents } := by
  simp only [importDocument, Loop.bind_ok] at h
  obtain ⟨_, _, _, _, _, _, _, _, _, _, _, _, inserted, hinsert, h⟩ := h
  split at h
  · cases h
    exact ⟨_, rfl⟩
  · obtain ⟨_, _, rfl⟩ := insertDocument_some hinsert
    cases h
    exact ⟨_, rfl⟩

theorem insertChunkOrIgnore_db {documentId content stableId : String} {position : Int} {chunkId : Nat}
    (h : insertChunkOrIgnore ldb documentId position content stableId = .ok (some (chunkId, ldb'))) :
    ∃ chunks, ldb' = { ldb with chunks } := by
  unfold insertChunkOrIgnore at h
  split at h
  · cases h
  · split at h
    · cases h
    · rename_i hinsert
      split at h
      · cases h
        obtain ⟨chunks, _, rfl⟩ := insertChunk_inserts hinsert
        exact ⟨chunks, rfl⟩
      · cases h

theorem importChunk_db (h : importChunk importer s row = .ok s') :
    ∃ chunks chunkEmbeddings, s'.db = { s.db with chunks, chunkEmbeddings } := by
  simp only [importChunk, Loop.bind_ok] at h
  obtain ⟨_, _, _, _, _, _, _, _, inserted, hinsert, h⟩ := h
  split at h
  · cases h
    exact ⟨_, _, rfl⟩
  · obtain ⟨chunks, rfl⟩ := insertChunkOrIgnore_db hinsert
    simp only [Loop.bind_ok] at h
    obtain ⟨vector, _, h⟩ := h
    split at h
    · cases h
      exact ⟨_, _, rfl⟩
    · split at h
      · cases h
      · rename_i hembed
        obtain ⟨_, rfl⟩ := insertChunkEmbedding_ok hembed
        cases h
        exact ⟨_, _, rfl⟩

theorem importMemoryVector_db {id : String} (h : importMemoryVector importer row id s = .ok s') :
    ∃ memoryEmbeddings, s'.db = { s.db with memoryEmbeddings } := by
  simp only [importMemoryVector, Loop.bind_ok] at h
  obtain ⟨vector, _, h⟩ := h
  split at h
  · cases h
    exact ⟨_, rfl⟩
  · cases h
    unfold insertMemoryEmbeddingOrIgnore
    split
    · exact ⟨_, rfl⟩
    · exact ⟨_, rfl⟩

theorem rememberParent_db {id : String} : (rememberParent row id s).db = s.db := by
  unfold rememberParent
  split <;> rfl

theorem importMemory_db (h : importMemory env importer now s row = .ok s') :
    ∃ memories memoryEmbeddings, s'.db = { s.db with memories, memoryEmbeddings } := by
  simp only [importMemory, Loop.bind_ok] at h
  obtain ⟨_, _, _, _, _, _, _, _, _, _, _, _, _, _, _, _, inserted, hinsert, h⟩ := h
  split at h
  · obtain ⟨memoryEmbeddings, hdb⟩ := importMemoryVector_db h
    rw [rememberParent_db] at hdb
    exact ⟨s.db.memories, memoryEmbeddings, hdb⟩
  · obtain ⟨memories, _, rfl⟩ := insertMemoryOrIgnore_some hinsert
    obtain ⟨memoryEmbeddings, hdb⟩ := importMemoryVector_db h
    rw [rememberParent_db] at hdb
    exact ⟨memories, memoryEmbeddings, hdb⟩

theorem importRelation_db (h : importRelation s row = .ok s') :
    ∃ memoryRelations, s'.db = { s.db with memoryRelations } := by
  simp only [importRelation, Loop.bind_ok] at h
  obtain ⟨_, _, _, _, _, _, h⟩ := h
  split at h
  · split at h
    · cases h
      exact ⟨_, rfl⟩
    · cases h
      exact ⟨_, rfl⟩
  · cases h
    exact ⟨_, rfl⟩

theorem importSource_db (h : importSource s row = .ok s') : ∃ memorySources, s'.db = { s.db with memorySources } := by
  simp only [importSource, Loop.bind_ok] at h
  obtain ⟨_, _, _, _, _, _, h⟩ := h
  split at h
  · split at h
    · cases h
      exact ⟨_, rfl⟩
    · cases h
      exact ⟨_, rfl⟩
  · cases h
    exact ⟨_, rfl⟩

theorem importApiKey_db {tables : LegacyTables} (h : importApiKey importer tables s row = .ok s') :
    ∃ apiKeys, s'.db = { s.db with apiKeys } := by
  unfold importApiKey at h
  split at h
  · cases h
    exact ⟨_, rfl⟩
  · simp only [Loop.bind_ok] at h
    obtain ⟨_, _, _, _, inserted, hinsert, h⟩ := h
    split at h
    · cases h
      exact ⟨_, rfl⟩
    · obtain ⟨_, _, rfl⟩ := insertApiKey_some hinsert
      cases h
      exact ⟨_, rfl⟩

theorem setParents_db (pending : List (String × String)) (ldb : LegacyDatabase) :
    ∃ memories, pending.foldl (fun db pending => setParent db pending.1 pending.2) ldb = { ldb with memories } := by
  induction pending generalizing ldb with
  | nil => exact ⟨_, rfl⟩
  | cons parent rest ih =>
    obtain ⟨memories, hrest⟩ := ih (setParent ldb parent.1 parent.2)
    rw [List.foldl_cons, hrest]
    unfold setParent
    split
    · exact ⟨_, rfl⟩
    · exact ⟨_, rfl⟩

-- ---------------------------------------------------------------------------
-- Loops
-- ---------------------------------------------------------------------------

/-- A loop whose steps relate databases does so as a whole. -/
theorem loop_relates {step : Import → Object → Except ImportError Import} {rows : List Object}
    {R : LegacyDatabase → LegacyDatabase → Prop} (hrefl : ∀ db, R db db) (htrans : ∀ db db' db'', R db db' → R db' db'' → R db db'')
    (hstep : ∀ s row s', step s row = .ok s' → R s.db s'.db) (h : rows.foldlM step s = .ok s') : R s.db s'.db :=
  Loop.invariant (I := fun t => R s.db t.db) (fun t row t' ht hrow => htrans _ _ _ ht (hstep t row t' hrow)) (hrefl s.db) h

/-- What every step of a loop leaves as it is, the loop leaves as it is. -/
theorem loop_keeps {β : Type} (part : LegacyDatabase → β) {step : Import → Object → Except ImportError Import}
    {rows : List Object} (hstep : ∀ s row s', step s row = .ok s' → part s'.db = part s.db)
    (h : rows.foldlM step s = .ok s') : part s'.db = part s.db :=
  loop_relates (R := fun db db' => part db' = part db) (fun _ => rfl) (fun _ _ _ h h' => h'.trans h) hstep h

/-- The loops of an import that succeeds, and the tables that only one of them writes to, or none. -/
theorem importLegacyTables_ok {tables : LegacyTables} {report : LegacyImportReport}
    (h : importLegacyTables env importer now localOrgId tables ldb = .ok (report, ldb')) :
    ∃ s₁ s₂ s₃ s₄ s₅ s₆ s₇ s₈ : Import,
      (tableRows tables "organization").foldlM (importOrganization localOrgId) ⟨ldb, ⟨0, 0, 0, 0, 0, 0, 0, 0⟩, [], []⟩ =
        .ok s₁ ∧
      (tableRows tables "space").foldlM importSpace s₁ = .ok s₂ ∧
      (tableRows tables "document").foldlM (importDocument importer) s₂ = .ok s₃ ∧
      (tableRows tables "chunk").foldlM (importChunk importer) s₃ = .ok s₄ ∧
      (tableRows tables "memory_entry").foldlM (importMemory env importer now) s₄ = .ok s₅ ∧
      (tableRows tables "memory_relations").foldlM importRelation
        { s₅ with db := s₅.pendingParents.foldl (fun db pending => setParent db pending.1 pending.2) s₅.db } = .ok s₆ ∧
      (tableRows tables "memory_document_source").foldlM importSource s₆ = .ok s₇ ∧
      (tableRows tables "apikey").foldlM (importApiKey importer tables) s₇ = .ok s₈ ∧
      report = s₈.report ∧ ldb' = s₈.db ∧ ldb'.organizations = s₁.db.organizations ∧ s₂.db.documents = ldb.documents ∧
      ldb'.documents = s₃.db.documents ∧ ldb'.jobs = ldb.jobs := by
  simp only [importLegacyTables, Loop.bind_ok] at h
  obtain ⟨s₁, horganizations, s₂, hspaces, s₃, hdocuments, s₄, hchunks, s₅, hmemories, s₆, hrelations, s₇, hsources,
    s₈, hkeys, h⟩ := h
  cases h
  refine ⟨s₁, s₂, s₃, s₄, s₅, s₆, s₇, s₈, horganizations, hspaces, hdocuments, hchunks, hmemories, hrelations, hsources,
    hkeys, rfl, rfl, ?_⟩
  obtain ⟨memories, hparents⟩ := setParents_db s₅.pendingParents s₅.db
  rw [hparents] at hrelations
  generalize hlinked : ({ s₅ with db := { s₅.db with memories } } : Import) = t at hrelations
  have h₁ : (s₁.db.documents, s₁.db.jobs) = (ldb.documents, ldb.jobs) :=
    loop_keeps (fun db => (db.documents, db.jobs))
      (fun _ _ _ h => by obtain ⟨_, hdb⟩ := importOrganization_db h; rw [hdb]) horganizations
  have h₂ : (s₂.db.organizations, s₂.db.documents, s₂.db.jobs) = (s₁.db.organizations, s₁.db.documents, s₁.db.jobs) :=
    loop_keeps (fun db => (db.organizations, db.documents, db.jobs))
      (fun _ _ _ h => by obtain ⟨_, hdb⟩ := importSpace_db h; rw [hdb]) hspaces
  have h₃ : (s₃.db.organizations, s₃.db.jobs) = (s₂.db.organizations, s₂.db.jobs) :=
    loop_keeps (fun db => (db.organizations, db.jobs))
      (fun _ _ _ h => by obtain ⟨_, hdb⟩ := importDocument_db h; rw [hdb]) hdocuments
  -- the loops from the chunks on
  let part (db : LegacyDatabase) := (db.organizations, db.documents, db.jobs)
  have ht : part t.db = part s₅.db := by rw [← hlinked]
  have h₄ : part s₄.db = part s₃.db :=
    loop_keeps part (fun _ _ _ h => by obtain ⟨_, _, hdb⟩ := importChunk_db h; rw [hdb]) hchunks
  have h₅ : part s₅.db = part s₄.db :=
    loop_keeps part (fun _ _ _ h => by obtain ⟨_, _, hdb⟩ := importMemory_db h; rw [hdb]) hmemories
  have h₆ : part s₆.db = part t.db :=
    loop_keeps part (fun _ _ _ h => by obtain ⟨_, hdb⟩ := importRelation_db h; rw [hdb]) hrelations
  have h₇ : part s₇.db = part s₆.db :=
    loop_keeps part (fun _ _ _ h => by obtain ⟨_, hdb⟩ := importSource_db h; rw [hdb]) hsources
  have h₈ : part s₈.db = part s₇.db :=
    loop_keeps part (fun _ _ _ h => by obtain ⟨_, hdb⟩ := importApiKey_db h; rw [hdb]) hkeys
  have hlater : part s₈.db = part s₃.db := h₈.trans (h₇.trans (h₆.trans (ht.trans (h₅.trans h₄))))
  simp only [part, Prod.mk.injEq] at h₁ h₂ h₃ hlater
  exact ⟨hlater.1.trans (h₃.1.trans h₂.1), h₂.2.1.trans h₁.1, hlater.2.1,
    hlater.2.2.trans (h₃.2.trans (h₂.2.2.trans h₁.2))⟩

end Storage
