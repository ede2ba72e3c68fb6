-- SUMMARY: The same export imported again: which rows it finds settled, and when an organization is displaced anew.
import Supermemory.Storage.LocalIdentity
import Supermemory.Storage.StatusSteps

/-!
# Importing an export again

A row of an export that was imported is settled: the next import ignores it, whatever was
added to the database in the meantime. Only the slug of the local organization is not
settled by an import, as it depends on the organization that the `Storage` found when it
was opened.
-/

namespace Storage

variable {env : Env} {importer : Importer} {now : Time} {s s' : Import} {db db' db'' : LegacyDatabase} {row : Object}

-- ---------------------------------------------------------------------------
-- What an import adds to
-- ---------------------------------------------------------------------------

/-- What the rows of an import rest on is still there: rows are added, and no identifier is lost. -/
structure Grows (db db' : LegacyDatabase) : Prop where
  space : ∀ space ∈ db.spaces, space ∈ db'.spaces
  document : ∀ d ∈ db.documents, ∃ d' ∈ db'.documents, d'.id = d.id ∧ d'.orgId = d.orgId
  chunk : ∀ c ∈ db.chunks, c ∈ db'.chunks
  memory : ∀ id, db.hasMemory id → db'.hasMemory id
  memoryEmbedding : ∀ e ∈ db.memoryEmbeddings, e ∈ db'.memoryEmbeddings
  memoryRelation : ∀ r ∈ db.memoryRelations, r ∈ db'.memoryRelations
  memorySource : ∀ r ∈ db.memorySources, r ∈ db'.memorySources
  apiKey : ∀ key ∈ db.apiKeys, key ∈ db'.apiKeys

/-- The ends of relations and sources are the same. -/
structure SameEnds (db db' : LegacyDatabase) : Prop extends Grows db db' where
  documents : ∀ id, db'.hasDocument id → db.hasDocument id
  memories : ∀ id, db'.hasMemory id → db.hasMemory id

theorem Grows.refl (db : LegacyDatabase) : Grows db db where
  space _ := id
  document d hd := ⟨d, hd, rfl, rfl⟩
  chunk _ := id
  memory _ := id
  memoryEmbedding _ := id
  memoryRelation _ := id
  memorySource _ := id
  apiKey _ := id

theorem Grows.trans (h : Grows db db') (h' : Grows db' db'') : Grows db db'' where
  space r hr := h'.space r (h.space r hr)
  document d hd := by
    obtain ⟨e, he, hid, horg⟩ := h.document d hd
    obtain ⟨f, hf, hid', horg'⟩ := h'.document e he
    exact ⟨f, hf, hid'.trans hid, horg'.trans horg⟩
  chunk r hr := h'.chunk r (h.chunk r hr)
  memory id hm := h'.memory id (h.memory id hm)
  memoryEmbedding r hr := h'.memoryEmbedding r (h.memoryEmbedding r hr)
  memoryRelation r hr := h'.memoryRelation r (h.memoryRelation r hr)
  memorySource r hr := h'.memorySource r (h.memorySource r hr)
  apiKey r hr := h'.apiKey r (h.apiKey r hr)

theorem Grows.hasDocument {id : String} (h : Grows db db') (hd : db.hasDocument id) : db'.hasDocument id := by
  obtain ⟨d, hd, rfl⟩ := hd
  obtain ⟨d', hd', hid, _⟩ := h.document d hd
  exact ⟨d', hd', hid⟩

theorem SameEnds.refl (db : LegacyDatabase) : SameEnds db db := ⟨.refl db, fun _ => id, fun _ => id⟩

theorem SameEnds.trans (h : SameEnds db db') (h' : SameEnds db' db'') : SameEnds db db'' :=
  ⟨h.toGrows.trans h'.toGrows, fun id hd => h.documents id (h'.documents id hd),
    fun id hm => h.memories id (h'.memories id hm)⟩

/-- A step on a row changes nothing, neither now nor after the database has grown. -/
def RowSettled (R : LegacyDatabase → LegacyDatabase → Prop) (step : Import → Object → Except ImportError Import)
    (row : Object) (db : LegacyDatabase) : Prop :=
  ∀ s, R db s.db → ∃ s', step s row = .ok s' ∧ s'.db = s.db ∧ s'.report = s.report

-- ---------------------------------------------------------------------------
-- Rows that were inserted or ignored are ignored
-- ---------------------------------------------------------------------------

section Inserts

variable {t : LegacyDatabase}

theorem insertSpace_grows {space : Space} {inserted : Option LegacyDatabase}
    (h : insertSpace db space = .ok inserted) : SameEnds db (inserted.getD db) := by
  cases inserted with
  | none => exact .refl db
  | some db' =>
    obtain ⟨spaces, hinsert, rfl⟩ := insertSpace_some h
    exact { SameEnds.refl db with space := fun r hr => (Table.mem_insert hinsert).mpr (.inl hr) }

theorem insertSpace_again {space : Space} {inserted : Option LegacyDatabase}
    (h : insertSpace db space = .ok inserted) (ht : Grows (inserted.getD db) t) : insertSpace t space = .ok none := by
  have hignored : (∃ p ∈ t.spaces, p.orgId = space.orgId ∧ p.containerTag = space.containerTag) ∨
      ∃ p ∈ t.spaces, p.id = space.id := by
    unfold insertSpace at h
    split at h
    · rename_i htaken
      cases h
      obtain ⟨p, hp, hsame⟩ := htaken
      exact .inl ⟨p, ht.space p hp, hsame⟩
    · split at h
      · rename_i hnone
        cases h
        obtain ⟨p, hp, hid⟩ := Table.insert_eq_none.mp hnone
        exact .inr ⟨p, ht.space p hp, hid⟩
      · rename_i spaces hinsert
        split at h
        · cases h
          exact .inr ⟨space, ht.space space ((Table.mem_insert hinsert).mpr (.inr rfl)), rfl⟩
        · cases h
  unfold insertSpace
  rcases hignored with htaken | htaken
  · exact if_pos htaken
  · rw [Table.insert_eq_none.mpr htaken]
    split <;> rfl

theorem insertDocument_grows {d : Document} {inserted : Option LegacyDatabase}
    (h : insertDocument db d = .ok inserted) : Grows db (inserted.getD db) := by
  cases inserted with
  | none => exact .refl db
  | some db' =>
    obtain ⟨documents, hinsert, rfl⟩ := insertDocument_some h
    exact { Grows.refl db with document := fun e he => ⟨e, (Table.mem_insert hinsert).mpr (.inl he), rfl, rfl⟩ }

theorem insertDocument_again {d : Document} {inserted : Option LegacyDatabase}
    (h : insertDocument db d = .ok inserted) (ht : Grows (inserted.getD db) t) : insertDocument t d = .ok none := by
  have hstored : (inserted.getD db).hasDocument d.id := by
    cases inserted with
    | none => exact insertDocument_none h
    | some db' =>
      obtain ⟨documents, hinsert, rfl⟩ := insertDocument_some h
      exact Table.taken_of_insert hinsert
  unfold insertDocument
  rw [Table.insert_eq_none.mpr (ht.hasDocument hstored)]

theorem insertMemoryOrIgnore_grows {m : Memory} {inserted : Option LegacyDatabase}
    (h : insertMemoryOrIgnore db m = .ok inserted) : Grows db (inserted.getD db) := by
  cases inserted with
  | none => exact .refl db
  | some db' =>
    obtain ⟨memories, hinsert, rfl⟩ := insertMemoryOrIgnore_some h
    refine { Grows.refl db with memory := ?_ }
    rintro id ⟨e, he, hid⟩
    exact ⟨e, (Table.mem_insert hinsert).mpr (.inl he), hid⟩

theorem insertMemoryOrIgnore_again {m m' : Memory} {inserted : Option LegacyDatabase}
    (h : insertMemoryOrIgnore db m = .ok inserted) (ht : Grows (inserted.getD db) t) (hid : m.id = m'.id) :
    insertMemoryOrIgnore t m' = .ok none := by
  have hstored : (inserted.getD db).hasMemory m.id := by
    cases inserted with
    | none => exact insertMemoryOrIgnore_none h
    | some db' =>
      obtain ⟨memories, hinsert, rfl⟩ := insertMemoryOrIgnore_some h
      exact Table.taken_of_insert hinsert
  unfold insertMemoryOrIgnore
  rw [Table.insert_eq_none.mpr (hid ▸ ht.memory m.id hstored)]

theorem insertApiKey_grows {key : ApiKey} {inserted : Option LegacyDatabase}
    (h : insertApiKey db key = .ok inserted) : SameEnds db (inserted.getD db) := by
  cases inserted with
  | none => exact .refl db
  | some db' =>
    obtain ⟨apiKeys, hinsert, rfl⟩ := insertApiKey_some h
    exact { SameEnds.refl db with apiKey := fun r hr => (Table.mem_insert hinsert).mpr (.inl hr) }

theorem insertApiKey_again {key : ApiKey} {inserted : Option LegacyDatabase}
    (h : insertApiKey db key = .ok inserted) (ht : Grows (inserted.getD db) t) : insertApiKey t key = .ok none := by
  have hstored : ∃ stored ∈ (inserted.getD db).apiKeys, stored.id = key.id := by
    cases inserted with
    | none => exact insertApiKey_none h
    | some db' =>
      obtain ⟨apiKeys, hinsert, rfl⟩ := insertApiKey_some h
      exact Table.taken_of_insert hinsert
  obtain ⟨stored, hmem, hid⟩ := hstored
  unfold insertApiKey
  rw [Table.insert_eq_none.mpr ⟨stored, ht.apiKey stored hmem, hid⟩]

/-- A chunk is refused on account of a chunk that is stored. -/
theorem insertChunk_error {documentId content stableId : String} {ordinal : Nat} {db : Database} {e : StorageError}
    (h : insertChunk db documentId ordinal content stableId = .error e) :
    ∃ c ∈ db.chunks, (c.documentId = documentId ∧ c.ordinal = ordinal) ∨ c.stableId = stableId := by
  unfold insertChunk at h
  simp only at h
  split at h
  · assumption
  · split at h
    · rename_i hnone
      obtain ⟨c, hc, hid⟩ := Table.insert_eq_none.mp hnone
      have hle : c.id ≤ (db.chunks.rows.map Chunk.id).foldr max 0 := List.le_max_of_le (List.mem_map_of_mem hc) (le_refl _)
      dsimp only at hid
      omega
    · cases h

theorem insertChunkOrIgnore_grows {documentId content stableId : String} {position : Int} {chunkId : Nat}
    (h : insertChunkOrIgnore db documentId position content stableId = .ok (some (chunkId, db'))) : Grows db db' := by
  unfold insertChunkOrIgnore at h
  split at h
  · cases h
  · split at h
    · cases h
    · rename_i hinsert
      split at h
      · cases h
        obtain ⟨chunks, hchunks, rfl⟩ := insertChunk_inserts hinsert
        exact { Grows.refl db with chunk := fun c hc => (Table.mem_insert hchunks).mpr (.inl hc) }
      · cases h

theorem insertChunkOrIgnore_again {documentId content stableId : String} {position : Int}
    {inserted : Option (Nat × LegacyDatabase)}
    (h : insertChunkOrIgnore db documentId position content stableId = .ok inserted)
    (ht : Grows ((inserted.map Prod.snd).getD db) t) :
    insertChunkOrIgnore t documentId position content stableId = .ok none := by
  unfold insertChunkOrIgnore at h ⊢
  split at h
  · rename_i hposition
    exact if_pos hposition
  · rename_i hposition
    rw [if_neg hposition]
    have hconflict : ∃ c ∈ t.chunks, (c.documentId = documentId ∧ c.ordinal = position.toNat) ∨ c.stableId = stableId := by
      split at h
      · rename_i herror
        cases h
        obtain ⟨c, hc, hsame⟩ := insertChunk_error herror
        exact ⟨c, ht.chunk c hc, hsame⟩
      · rename_i chunkId inserted hinsert
        split at h
        · cases h
          obtain ⟨chunks, hchunks, rfl⟩ := insertChunk_inserts hinsert
          exact ⟨_, ht.chunk _ ((Table.mem_insert hchunks).mpr (.inr rfl)), .inr rfl⟩
        · cases h
    have hrefused : insertChunk t.toDatabase documentId position.toNat content stableId = .error .write :=
      if_pos hconflict
    rw [hrefused]

theorem insertMemoryEmbeddingOrIgnore_grows {embedding : MemoryEmbedding} :
    Grows db (insertMemoryEmbeddingOrIgnore db embedding) := by
  unfold insertMemoryEmbeddingOrIgnore
  split
  · exact .refl db
  · cases hinsert : db.memoryEmbeddings.insert embedding with
    | none => exact .refl db
    | some memoryEmbeddings =>
      exact { Grows.refl db with memoryEmbedding := fun e he => (Table.mem_insert hinsert).mpr (.inl he) }

theorem insertMemoryEmbeddingOrIgnore_again {embedding : MemoryEmbedding}
    (ht : Grows (insertMemoryEmbeddingOrIgnore db embedding) t) : insertMemoryEmbeddingOrIgnore t embedding = t := by
  unfold insertMemoryEmbeddingOrIgnore at ht ⊢
  split
  · rfl
  · rename_i hdimensions
    rw [if_neg hdimensions] at ht
    have htaken : ∃ e ∈ t.memoryEmbeddings, e.memoryId = embedding.memoryId := by
      cases hinsert : db.memoryEmbeddings.insert embedding with
      | none =>
        obtain ⟨e, he, hid⟩ := Table.insert_eq_none.mp hinsert
        rw [hinsert] at ht
        exact ⟨e, ht.memoryEmbedding e he, hid⟩
      | some memoryEmbeddings =>
        obtain ⟨e, he, hid⟩ := Table.taken_of_insert hinsert
        rw [hinsert] at ht
        exact ⟨e, ht.memoryEmbedding e he, hid⟩
    rw [Table.insert_eq_none.mpr htaken]
    rfl

end Inserts

-- ---------------------------------------------------------------------------
-- Steps
-- ---------------------------------------------------------------------------

theorem importSpace_grows (h : importSpace s row = .ok s') :
    SameEnds s.db s'.db ∧ s'.pendingParents = s.pendingParents := by
  simp only [importSpace, Loop.bind_ok] at h
  obtain ⟨_, _, _, _, _, _, _, _, _, _, inserted, hinsert, h⟩ := h
  have hgrows := insertSpace_grows hinsert
  split at h
  · cases h
    exact ⟨hgrows, rfl⟩
  · cases h
    exact ⟨hgrows, rfl⟩

theorem importSpace_settled (h : importSpace s row = .ok s') : RowSettled Grows importSpace row s'.db := by
  simp only [importSpace, Loop.bind_ok] at h
  obtain ⟨id, hid, tag, htag, orgId, horg, created, hcreated, updated, hupdated, inserted, hinsert, h⟩ := h
  intro t ht
  have hdb : inserted.getD s.db = s'.db := by
    split at h <;> cases h <;> rfl
  have hagain := insertSpace_again hinsert (hdb ▸ ht)
  refine ⟨{ t with spaces := (id, tag) :: t.spaces }, ?_, rfl, rfl⟩
  simp only [importSpace, Loop.bind_ok]
  exact ⟨id, hid, tag, htag, orgId, horg, created, hcreated, updated, hupdated, none, hagain, rfl⟩

theorem importDocument_grows (h : importDocument importer s row = .ok s') :
    Grows s.db s'.db ∧ s'.pendingParents = s.pendingParents := by
  simp only [importDocument, Loop.bind_ok] at h
  obtain ⟨_, _, _, _, _, _, _, _, _, _, _, _, inserted, hinsert, h⟩ := h
  have hgrows := insertDocument_grows hinsert
  split at h
  · cases h
    exact ⟨hgrows, rfl⟩
  · cases h
    exact ⟨hgrows, rfl⟩

theorem importDocument_settled (h : importDocument importer s row = .ok s') :
    RowSettled Grows (importDocument importer) row s'.db := by
  simp only [importDocument, Loop.bind_ok] at h
  obtain ⟨metadata, hmetadata, id, hid, orgId, horg, hash, hhash, created, hcreated, updated, hupdated, inserted,
    hinsert, h⟩ := h
  intro t ht
  have hdb : inserted.getD s.db = s'.db := by
    split at h <;> cases h <;> rfl
  have hagain := insertDocument_again hinsert (hdb ▸ ht)
  refine ⟨t, ?_, rfl, rfl⟩
  simp only [importDocument, Loop.bind_ok]
  exact ⟨metadata, hmetadata, id, hid, orgId, horg, hash, hhash, created, hcreated, updated, hupdated, none, hagain, rfl⟩

theorem importChunk_grows (h : importChunk importer s row = .ok s') :
    Grows s.db s'.db ∧ s'.pendingParents = s.pendingParents := by
  simp only [importChunk, Loop.bind_ok] at h
  obtain ⟨_, _, _, _, _, _, _, _, inserted, hinsert, h⟩ := h
  split at h
  · cases h
    exact ⟨.refl s.db, rfl⟩
  · have hgrows := insertChunkOrIgnore_grows hinsert
    simp only [Loop.bind_ok] at h
    obtain ⟨vector, _, h⟩ := h
    split at h
    · cases h
      exact ⟨hgrows, rfl⟩
    · split at h
      · cases h
      · rename_i hembed
        obtain ⟨_, rfl⟩ := insertChunkEmbedding_ok hembed
        cases h
        exact ⟨hgrows.trans { Grows.refl _ with }, rfl⟩

theorem importChunk_settled (h : importChunk importer s row = .ok s') :
    RowSettled Grows (importChunk importer) row s'.db := by
  simp only [importChunk, Loop.bind_ok] at h
  obtain ⟨documentId, hdocument, position, hposition, content, hcontent, stableId, hstable, inserted, hinsert, h⟩ := h
  intro t ht
  have hgrows : Grows ((inserted.map Prod.snd).getD s.db) s'.db := by
    split at h
    · cases h
      exact .refl s.db
    · simp only [Loop.bind_ok] at h
      obtain ⟨vector, _, h⟩ := h
      split at h
      · cases h
        exact .refl _
      · split at h
        · cases h
        · rename_i hembed
          obtain ⟨_, rfl⟩ := insertChunkEmbedding_ok hembed
          cases h
          exact { Grows.refl _ with }
  have hagain := insertChunkOrIgnore_again hinsert (hgrows.trans ht)
  refine ⟨t, ?_, rfl, rfl⟩
  simp only [importChunk, Loop.bind_ok]
  exact ⟨documentId, hdocument, position, hposition, content, hcontent, stableId, hstable, none, hagain, rfl⟩

/-- The parent that a row names for its memory. -/
def parentLink (row : Object) : List (String × String) :=
  ((optionalField row "id").bind fun id => (optionalField row "parent_memory_id").map (id, ·)).toList

theorem rememberParent_pending {id : String} (hid : field row "id" = .ok id) :
    (rememberParent row id s).pendingParents = s.pendingParents ++ parentLink row := by
  unfold rememberParent parentLink
  rw [field_ok hid]
  cases optionalField row "parent_memory_id" with
  | none => simp
  | some parent => rfl

theorem rememberParent_report {id : String} : (rememberParent row id s).report = s.report := by
  unfold rememberParent
  split <;> rfl

theorem importMemoryVector_grows {id : String} (h : importMemoryVector importer row id s = .ok s') :
    Grows s.db s'.db ∧ s'.pendingParents = s.pendingParents := by
  simp only [importMemoryVector, Loop.bind_ok] at h
  obtain ⟨vector, _, h⟩ := h
  split at h
  · cases h
    exact ⟨.refl s.db, rfl⟩
  · cases h
    exact ⟨insertMemoryEmbeddingOrIgnore_grows, rfl⟩

theorem importMemoryVector_settled {id : String} (h : importMemoryVector importer row id s = .ok s') {t : Import}
    (ht : Grows s'.db t.db) : importMemoryVector importer row id t = .ok t := by
  simp only [importMemoryVector, Loop.bind_ok] at h ⊢
  obtain ⟨vector, hvector, h⟩ := h
  refine ⟨vector, hvector, ?_⟩
  split at h
  · rfl
  · cases h
    rw [insertMemoryEmbeddingOrIgnore_again ht]
    rfl

theorem importMemory_grows (h : importMemory env importer now s row = .ok s') :
    Grows s.db s'.db ∧ s'.pendingParents = s.pendingParents ++ parentLink row := by
  simp only [importMemory, Loop.bind_ok] at h
  obtain ⟨id, hid, _, _, _, _, _, _, _, _, _, _, _, _, _, _, inserted, hinsert, h⟩ := h
  have hgrows := insertMemoryOrIgnore_grows hinsert
  split at h
  · obtain ⟨hvector, hpending⟩ := importMemoryVector_grows h
    rw [rememberParent_db] at hvector
    exact ⟨hvector, hpending.trans (rememberParent_pending hid)⟩
  · obtain ⟨hvector, hpending⟩ := importMemoryVector_grows h
    rw [rememberParent_db] at hvector
    exact ⟨hgrows.trans hvector, hpending.trans (rememberParent_pending hid)⟩

theorem importMemory_settled (h : importMemory env importer now s row = .ok s') (later : Time) :
    RowSettled Grows (importMemory env importer later) row s'.db := by
  simp only [importMemory, Loop.bind_ok] at h
  obtain ⟨id, hid, metadata, hmetadata, orgId, horg, content, hcontent, version, hversion, created, hcreated, updated,
    hupdated, count, hcount, inserted, hinsert, h⟩ := h
  intro t ht
  have hgrows : Grows (inserted.getD s.db) s'.db := by
    split at h
    · have hvector := (importMemoryVector_grows h).1
      rwa [rememberParent_db] at hvector
    · have hvector := (importMemoryVector_grows h).1
      rwa [rememberParent_db] at hvector
  have hvector : importMemoryVector importer row id (rememberParent row id t) = .ok (rememberParent row id t) := by
    have ht' : Grows s'.db (rememberParent row id t).db := rememberParent_db.symm ▸ ht
    split at h
    · exact importMemoryVector_settled h ht'
    · exact importMemoryVector_settled h ht'
  refine ⟨rememberParent row id t, ?_, rememberParent_db, rememberParent_report⟩
  simp only [importMemory, Loop.bind_ok]
  exact ⟨id, hid, metadata, hmetadata, orgId, horg, content, hcontent, version, hversion, created, hcreated, updated,
    hupdated, count, hcount, none, insertMemoryOrIgnore_again hinsert (hgrows.trans ht) rfl, hvector⟩

theorem importRelation_grows (h : importRelation s row = .ok s') : SameEnds s.db s'.db ∧ s'.db.memories = s.db.memories := by
  simp only [importRelation, Loop.bind_ok] at h
  obtain ⟨_, _, _, _, _, _, h⟩ := h
  split at h
  · split at h
    · cases h
      exact ⟨.refl s.db, rfl⟩
    · rename_i hinsert
      cases h
      exact ⟨{ SameEnds.refl s.db with memoryRelation := fun r hr => (Table.mem_insert hinsert).mpr (.inl hr) }, rfl⟩
  · cases h
    exact ⟨.refl s.db, rfl⟩

/-- A relation with a missing end is ignored as long as the end is missing. -/
theorem importRelation_settled (h : importRelation s row = .ok s') : RowSettled SameEnds importRelation row s'.db := by
  simp only [importRelation, Loop.bind_ok] at h
  obtain ⟨relation, hrelation, parentId, hparent, childId, hchild, h⟩ := h
  intro t ht
  refine ⟨t, ?_, rfl, rfl⟩
  simp only [importRelation, Loop.bind_ok]
  refine ⟨relation, hrelation, parentId, hparent, childId, hchild, ?_⟩
  split at h
  · rename_i hends
    have hstored : ∃ r ∈ s'.db.memoryRelations, r = ⟨parentId, childId, compatibleRelation relation⟩ := by
      split at h
      · rename_i hnone
        cases h
        exact Table.insert_eq_none.mp hnone
      · rename_i hinsert
        cases h
        exact Table.taken_of_insert hinsert
    obtain ⟨r, hr, rfl⟩ := hstored
    split
    · rw [Table.insert_eq_none.mpr ⟨_, ht.memoryRelation _ hr, rfl⟩]
      rfl
    · rfl
  · rename_i hends
    cases h
    rw [if_neg]
    · rfl
    · exact fun hboth => hends ⟨ht.memories _ hboth.1, ht.memories _ hboth.2⟩

theorem importSource_grows (h : importSource s row = .ok s') : SameEnds s.db s'.db ∧ s'.db.memories = s.db.memories := by
  simp only [importSource, Loop.bind_ok] at h
  obtain ⟨_, _, _, _, _, _, h⟩ := h
  split at h
  · split at h
    · cases h
      exact ⟨.refl s.db, rfl⟩
    · rename_i hinsert
      cases h
      exact ⟨{ SameEnds.refl s.db with memorySource := fun r hr => (Table.mem_insert hinsert).mpr (.inl hr) }, rfl⟩
  · cases h
    exact ⟨.refl s.db, rfl⟩

/-- A source with a missing end is ignored as long as the end is missing. -/
theorem importSource_settled (h : importSource s row = .ok s') : RowSettled SameEnds importSource row s'.db := by
  simp only [importSource, Loop.bind_ok] at h
  obtain ⟨memoryId, hmemory, documentId, hdocument, created, hcreated, h⟩ := h
  intro t ht
  refine ⟨t, ?_, rfl, rfl⟩
  simp only [importSource, Loop.bind_ok]
  refine ⟨memoryId, hmemory, documentId, hdocument, created, hcreated, ?_⟩
  split at h
  · have hstored : ∃ r ∈ s'.db.memorySources, r = ⟨memoryId, documentId⟩ := by
      split at h
      · rename_i hnone
        cases h
        exact Table.insert_eq_none.mp hnone
      · rename_i hinsert
        cases h
        exact Table.taken_of_insert hinsert
    obtain ⟨r, hr, rfl⟩ := hstored
    split
    · rw [Table.insert_eq_none.mpr ⟨_, ht.memorySource _ hr, rfl⟩]
      rfl
    · rfl
  · rename_i hends
    cases h
    rw [if_neg]
    · rfl
    · exact fun hboth => hends ⟨ht.memories _ hboth.1, ht.documents _ hboth.2⟩

theorem importApiKey_grows {tables : LegacyTables} (h : importApiKey importer tables s row = .ok s') :
    SameEnds s.db s'.db ∧ s'.db.memories = s.db.memories := by
  unfold importApiKey at h
  split at h
  · cases h
    exact ⟨.refl s.db, rfl⟩
  · simp only [Loop.bind_ok] at h
    obtain ⟨_, _, _, _, inserted, hinsert, h⟩ := h
    have hgrows := insertApiKey_grows hinsert
    have hmemories : (inserted.getD s.db).memories = s.db.memories := by
      cases inserted with
      | none => rfl
      | some db' =>
        obtain ⟨_, _, rfl⟩ := insertApiKey_some hinsert
        rfl
    split at h
    · cases h
      exact ⟨hgrows, hmemories⟩
    · cases h
      exact ⟨hgrows, hmemories⟩

theorem importApiKey_settled {tables : LegacyTables} (h : importApiKey importer tables s row = .ok s') :
    RowSettled SameEnds (importApiKey importer tables) row s'.db := by
  intro t ht
  refine ⟨t, ?_, rfl, rfl⟩
  unfold importApiKey at h ⊢
  split at h
  · rfl
  · simp only [Loop.bind_ok] at h ⊢
    obtain ⟨id, hid, created, hcreated, inserted, hinsert, h⟩ := h
    have hdb : inserted.getD s.db = s'.db := by
      split at h <;> cases h <;> rfl
    have hagain := insertApiKey_again hinsert (hdb ▸ ht.toGrows)
    exact ⟨id, hid, created, hcreated, none, hagain, rfl⟩

-- ---------------------------------------------------------------------------
-- Parents
-- ---------------------------------------------------------------------------

/-- Sets the parents of memories, one after the other. -/
def setParents (pending : List (String × String)) (db : LegacyDatabase) : LegacyDatabase :=
  pending.foldl (fun db pending => setParent db pending.1 pending.2) db

theorem setParent_sameEnds {id parent : String} : SameEnds db (setParent db id parent) := by
  unfold setParent
  split
  · have hids {key : String} : (∃ m ∈ db.memories.update (fun m => m.id = id)
        (fun m => { m with parentMemoryId := some parent }), m.id = key) ↔ db.hasMemory key := by
      constructor
      · rintro ⟨m, hm, hid⟩
        obtain ⟨r, hr, hsame, _⟩ := Table.of_mem_update hm
        exact ⟨r, hr, hsame.trans hid⟩
      · rintro ⟨r, hr, hid⟩
        refine ⟨_, Table.update_mem hr, ?_⟩
        split
        · exact hid
        · exact hid
    exact { SameEnds.refl db with memory := fun id hm => hids.mpr hm, memories := fun id hm => hids.mp hm }
  · exact .refl db

/-- A memory with the last of its parents that are stored. -/
def linked (stored : String → Bool) (pending : List (String × String)) (m : Memory) : Memory :=
  pending.foldl (fun m link => if stored link.2 ∧ m.id = link.1 then { m with parentMemoryId := some link.2 } else m) m

section Linked

variable {stored : String → Bool} {pending : List (String × String)} {m : Memory}

theorem linked_cons {link : String × String} : linked stored (link :: pending) m =
    linked stored pending (if stored link.2 ∧ m.id = link.1 then { m with parentMemoryId := some link.2 } else m) := rfl

theorem linked_parent (stored : String → Bool) (pending : List (String × String)) (m : Memory) : ∃ parent, linked stored pending m = { m with parentMemoryId := parent } := by
  induction pending generalizing m with
  | nil => exact ⟨m.parentMemoryId, rfl⟩
  | cons link rest ih =>
    rw [linked_cons]
    split
    · obtain ⟨parent, hparent⟩ := ih { m with parentMemoryId := some link.2 }
      exact ⟨parent, hparent⟩
    · exact ih m

/-- The links leave a memory alone, or they decide its parent whatever it was. -/
theorem linked_decides (stored : String → Bool) (pending : List (String × String)) (m : Memory) :
    linked stored pending m = m ∨
      ∀ parent, linked stored pending { m with parentMemoryId := parent } = linked stored pending m := by
  induction pending generalizing m with
  | nil => exact .inl rfl
  | cons link rest ih =>
    simp only [linked_cons]
    split
    · exact .inr fun _ => rfl
    · exact ih m

theorem linked_linked : linked stored pending (linked stored pending m) = linked stored pending m := by
  obtain ⟨parent, hparent⟩ := linked_parent stored pending m
  rcases linked_decides stored pending m with hsame | hdecides
  · rw [hsame, hsame]
  · calc linked stored pending (linked stored pending m)
      _ = linked stored pending { m with parentMemoryId := parent } := by rw [hparent]
      _ = linked stored pending m := hdecides parent

end Linked

theorem setParent_rows (db : LegacyDatabase) (id parent : String) : ∃ memories, setParent db id parent = { db with memories } ∧
    memories.rows = db.memories.rows.map (linked (fun id => db.hasMemory id) [(id, parent)]) := by
  unfold setParent linked
  by_cases hparent : db.hasMemory parent
  · rw [if_pos hparent]
    refine ⟨_, rfl, ?_⟩
    simp [Table.update, hparent]
  · rw [if_neg hparent]
    refine ⟨_, rfl, ?_⟩
    simp [hparent]

/-- The memories that are stored, as far as links ask for them. -/
theorem hasMemory_congr (h : ∀ id, db'.hasMemory id ↔ db.hasMemory id) :
    (fun id => decide (db'.hasMemory id)) = fun id => decide (db.hasMemory id) :=
  funext fun id => decide_eq_decide.mpr (h id)

theorem setParents_sameEnds (pending : List (String × String)) : SameEnds db (setParents pending db) := by
  induction pending generalizing db with
  | nil => exact .refl db
  | cons link rest ih => exact setParent_sameEnds.trans ih

theorem setParents_rows (pending : List (String × String)) (db : LegacyDatabase) : ∃ memories, setParents pending db = { db with memories } ∧
    memories.rows = db.memories.rows.map (linked (fun id => db.hasMemory id) pending) := by
  induction pending generalizing db with
  | nil => exact ⟨db.memories, rfl, (List.map_id _).symm⟩
  | cons link rest ih =>
    obtain ⟨first, hfirst, hrows⟩ := setParent_rows db link.1 link.2
    obtain ⟨memories, hrest, hrows'⟩ := ih (setParent db link.1 link.2)
    have hsame : SameEnds db (setParent db link.1 link.2) := setParent_sameEnds
    have hstored := hasMemory_congr fun id => ⟨hsame.memories id, hsame.memory id⟩
    refine ⟨memories, ?_, ?_⟩
    · rw [setParents, List.foldl_cons, ← setParents, hrest, hfirst]
    · rw [hrows', hstored, hfirst, hrows, List.map_map]
      rfl

/-- Every memory has the parent that the links give it. -/
def Linked (pending : List (String × String)) (db : LegacyDatabase) : Prop :=
  ∀ m ∈ db.memories, linked (fun id => db.hasMemory id) pending m = m

theorem linked_setParents (pending : List (String × String)) (db : LegacyDatabase) :
    Linked pending (setParents pending db) := by
  have hsame : SameEnds db (setParents pending db) := setParents_sameEnds pending
  have hstored := hasMemory_congr fun id => ⟨hsame.memories id, hsame.memory id⟩
  obtain ⟨memories, hdb, hrows⟩ := setParents_rows pending db
  intro m hm
  rw [hstored]
  rw [hdb, ← Table.mem_rows, hrows] at hm
  obtain ⟨m, _, rfl⟩ := List.mem_map.mp hm
  exact linked_linked

/-- Parents that are set already are not changed by setting them again. -/
theorem Linked.setParents {pending : List (String × String)} (h : Linked pending db) : setParents pending db = db := by
  obtain ⟨memories, hdb, hrows⟩ := setParents_rows pending db
  have hmemories : memories = db.memories := by
    ext1
    rw [hrows, List.map_congr_left h, List.map_id']
  rw [hdb, hmemories]

theorem Linked.of_memories {pending : List (String × String)} (h : Linked pending db)
    (heq : db'.memories = db.memories) : Linked pending db' := by
  have hiff (id : String) : db'.hasMemory id ↔ db.hasMemory id := by
    unfold Database.hasMemory
    rw [heq]
  intro m hm
  rw [hasMemory_congr hiff]
  exact h m (heq ▸ hm)

-- ---------------------------------------------------------------------------
-- Organizations
-- ---------------------------------------------------------------------------

/-- A slug without the mark of a slug that was given up. -/
def Unmarked (slug : String) : Prop := ¬ "-rs-".toList <:+: slug.toList

/-- An organization with the identifier or the slug is stored. -/
def Taken (db : LegacyDatabase) (id slug : String) : Prop :=
  (∃ p ∈ db.organizations, p.id = id) ∨ ∃ p ∈ db.organizations, p.slug = slug

/-- An exported organization that the import of a `Storage` ignores now and later: it makes no organization yield,
    and its identifier is taken, or its slug by an organization that never yields. -/
structure Placed (localOrgId id slug : String) (db : LegacyDatabase) : Prop where
  unmarked : Unmarked slug
  keeps : ∀ o ∈ db.organizations, ¬ Yields db.toDatabase localOrgId id slug o
  taken : (∃ p ∈ db.organizations, p.id = id) ∨
    ∃ p ∈ db.organizations, p.slug = slug ∧ (p.id ≠ localOrgId ∨ ∃ d ∈ db.documents, d.orgId = localOrgId)

theorem Placed.isTaken {localOrgId id slug : String} (h : Placed localOrgId id slug db) : Taken db id slug :=
  h.taken.imp_right fun ⟨p, hp, hslug, _⟩ => ⟨p, hp, hslug⟩

theorem not_unmarked_markedSlug {o : Organization} : ¬ Unmarked (markedSlug o) := by
  refine not_not.mpr ⟨o.slug.toList, o.id.toList.take 6, ?_⟩
  simp [markedSlug]

section Organizations

variable {localOrgId id slug : String}

theorem insertOrganization_none {o : Organization} : insertOrganization db o = none ↔ Taken db o.id o.slug := by
  unfold insertOrganization Taken
  split
  · rename_i hslug
    exact ⟨fun _ => .inr hslug, fun _ => rfl⟩
  · rename_i hfree
    rw [Option.map_eq_none_iff, Table.insert_eq_none]
    exact ⟨.inl, fun h => h.resolve_right hfree⟩

/-- The import of one organization: the local one may yield, and then the new one is inserted or ignored. -/
theorem importOrganization_ok (h : importOrganization localOrgId s row = .ok s') :
    ∃ id slug dbr, field row "id" = .ok id ∧ field row "slug" = .ok slug ∧ (field row "created_at").isOk = true ∧
      renameOrganization localOrgId id slug s.db = .ok dbr ∧ s'.pendingParents = s.pendingParents ∧
      (Taken dbr id slug ∧ s'.db = dbr ∨ ∃ organizations,
        dbr.organizations.insert ⟨id, slug⟩ = some organizations ∧ s'.db = { dbr with organizations }) := by
  simp only [importOrganization, Loop.bind_ok] at h
  obtain ⟨id, hid, slug, hslug, dbr, hrename, created, hcreated, h⟩ := h
  refine ⟨id, slug, dbr, hid, hslug, ?_, hrename, ?_⟩
  · rw [hcreated]
    rfl
  · split at h
    · rename_i hnone
      cases h
      exact ⟨rfl, .inl ⟨insertOrganization_none.mp hnone, rfl⟩⟩
    · rename_i hsome
      cases h
      obtain ⟨_, organizations, hinsert, rfl⟩ := insertOrganization_some hsome
      exact ⟨rfl, .inr ⟨organizations, hinsert, rfl⟩⟩

/-- An organization that makes no other one yield, and is stored already, is ignored. -/
theorem importOrganization_idle (hid : field row "id" = .ok id) (hslug : field row "slug" = .ok slug)
    (hcreated : (field row "created_at").isOk = true)
    (hkeeps : ∀ o ∈ s.db.organizations, ¬ Yields s.db.toDatabase localOrgId id slug o) (htaken : Taken s.db id slug) :
    importOrganization localOrgId s row = .ok s := by
  have hrename : renameOrganization localOrgId id slug s.db = .ok s.db := by
    unfold renameOrganization
    rw [if_neg fun ⟨o, ho, hyields, _⟩ => hkeeps o ho hyields, Table.update_eq_self hkeeps]
  cases hc : field row "created_at" with
  | error e =>
    rw [hc] at hcreated
    cases hcreated
  | ok created =>
    simp only [importOrganization, Loop.bind_ok]
    refine ⟨id, hid, slug, hslug, s.db, hrename, created, hc, ?_⟩
    rw [insertOrganization_none.mpr htaken]
    rfl

/-- The organizations after the import of one of them. -/
structure Organized (localOrgId id slug : String) (db db' : LegacyDatabase) : Prop where
  documents : db'.documents = db.documents
  rows : ∀ o ∈ db'.organizations,
    (∃ p ∈ db.organizations, o = if Yields db.toDatabase localOrgId id slug p then { p with slug := markedSlug p } else p) ∨
      o = ⟨id, slug⟩ ∧ ∀ p ∈ db.organizations, p.id ≠ id
  kept : ∀ p ∈ db.organizations,
    (if Yields db.toDatabase localOrgId id slug p then { p with slug := markedSlug p } else p) ∈ db'.organizations
  taken : Taken db' id slug

theorem importOrganization_organizes (h : importOrganization localOrgId s row = .ok s') : ∃ id slug,
    field row "id" = .ok id ∧ field row "slug" = .ok slug ∧ (field row "created_at").isOk = true ∧
      s'.pendingParents = s.pendingParents ∧ Organized localOrgId id slug s.db s'.db := by
  obtain ⟨id, slug, dbr, hid, hslug, hcreated, hrename, hpending, himport⟩ := importOrganization_ok h
  refine ⟨id, slug, hid, hslug, hcreated, hpending, ?_⟩
  have hdocuments : dbr.documents = s.db.documents := by
    rw [renameOrganization_ok hrename]
  have hmem {o : Organization} := mem_renameOrganization (o := o) hrename
  rcases himport with ⟨htaken, hdb⟩ | ⟨organizations, hinsert, hdb⟩
  · rw [hdb]
    exact
      { documents := hdocuments
        rows := fun o ho => .inl (hmem.mp ho)
        kept := fun p hp => hmem.mpr ⟨p, hp, rfl⟩
        taken := htaken }
  · rw [hdb]
    refine
      { documents := hdocuments
        rows := ?_
        kept := fun p hp => (Table.mem_insert hinsert).mpr (.inl (hmem.mpr ⟨p, hp, rfl⟩))
        taken := .inl (Table.taken_of_insert hinsert) }
    intro o ho
    rcases (Table.mem_insert hinsert).mp ho with hold | rfl
    · exact .inl (hmem.mp hold)
    · refine .inr ⟨rfl, ?_⟩
      intro p hp hpid
      have hfresh := Table.insert_fresh hinsert _ (hmem.mpr ⟨p, hp, rfl⟩)
      split at hfresh
      · exact hfresh hpid
      · exact hfresh hpid

namespace Organized

/-- The local organization is stored as long as there is one. -/
theorem localRow (h : Organized localOrgId id slug db db') (hrow : ∃ o ∈ db.organizations, o.id = localOrgId) :
    ∃ o ∈ db'.organizations, o.id = localOrgId := by
  obtain ⟨o, ho, hid⟩ := hrow
  refine ⟨_, h.kept o ho, ?_⟩
  split
  · exact hid
  · exact hid

theorem placed (h : Organized localOrgId id slug db db') (hslug : Unmarked slug) : Placed localOrgId id slug db' := by
  have hkeeps : ∀ o ∈ db'.organizations, ¬ Yields db'.toDatabase localOrgId id slug o := by
    rintro o ho ⟨hsame, hother, hlocal, hempty⟩
    rcases h.rows o ho with ⟨p, hp, rfl⟩ | ⟨rfl, _⟩
    · split at hsame
      · exact not_unmarked_markedSlug (hsame ▸ hslug)
      · rename_i hkept
        rw [if_neg hkept] at hother hlocal hempty
        rw [h.documents] at hempty
        exact hkept ⟨hsame, hother, hlocal, hempty⟩
    · exact hother rfl
  refine ⟨hslug, hkeeps, ?_⟩
  rcases h.taken with hid | ⟨p, hp, hsame⟩
  · exact .inl hid
  · by_cases hpid : p.id = id
    · exact .inl ⟨p, hp, hpid⟩
    · refine .inr ⟨p, hp, hsame, ?_⟩
      by_contra hyields
      push Not at hyields
      exact hkeeps p hp ⟨hsame, hpid, hyields.1, fun d hd hown => hyields.2 d hd (hown.trans hyields.1)⟩

/-- The import of another organization keeps one in its place. -/
theorem keeps {id' slug' : String} (h : Organized localOrgId id' slug' db db')
    (hrow : ∃ o ∈ db.organizations, o.id = localOrgId) (hplaced : Placed localOrgId id slug db) :
    Placed localOrgId id slug db' := by
  refine ⟨hplaced.unmarked, ?_, ?_⟩
  · rintro o ho ⟨hsame, hother, hlocal, hempty⟩
    rcases h.rows o ho with ⟨p, hp, rfl⟩ | ⟨rfl, hfresh⟩
    · split at hsame
      · exact not_unmarked_markedSlug (hsame ▸ hplaced.unmarked)
      · rename_i hkept
        rw [if_neg hkept] at hother hlocal hempty
        rw [h.documents] at hempty
        exact hplaced.keeps p hp ⟨hsame, hother, hlocal, hempty⟩
    · obtain ⟨p, hp, hpid⟩ := hrow
      exact hfresh p hp (hpid.trans hlocal.symm)
  · rcases hplaced.taken with ⟨p, hp, hpid⟩ | ⟨p, hp, hsame, hholds⟩
    · refine .inl ⟨_, h.kept p hp, ?_⟩
      split
      · exact hpid
      · exact hpid
    · have hkept : ¬ Yields db.toDatabase localOrgId id' slug' p := by
        rintro ⟨_, _, hlocal, hempty⟩
        rcases hholds with hother | ⟨d, hd, hown⟩
        · exact hother hlocal
        · exact hempty d hd (hown.trans hlocal.symm)
      have hp' := h.kept p hp
      rw [if_neg hkept] at hp'
      exact .inr ⟨p, hp', hsame, h.documents ▸ hholds⟩

end Organized

end Organizations

theorem Placed.grow {localOrgId id slug : String} (h : Placed localOrgId id slug db)
    (horganizations : db'.organizations = db.organizations) (hgrows : Grows db db') :
    Placed localOrgId id slug db' := by
  refine ⟨h.unmarked, ?_, ?_⟩
  · rw [horganizations]
    rintro o ho ⟨hsame, hother, hlocal, hempty⟩
    refine h.keeps o ho ⟨hsame, hother, hlocal, ?_⟩
    intro d hd hown
    obtain ⟨d', hd', _, horg⟩ := hgrows.document d hd
    exact hempty d' hd' (horg.trans hown)
  · rw [horganizations]
    refine h.taken.imp_right ?_
    rintro ⟨p, hp, hsame, hholds⟩
    refine ⟨p, hp, hsame, hholds.imp_right ?_⟩
    rintro ⟨d, hd, hown⟩
    obtain ⟨d', hd', _, horg⟩ := hgrows.document d hd
    exact ⟨d', hd', horg.trans hown⟩

-- ---------------------------------------------------------------------------
-- Whole exports
-- ---------------------------------------------------------------------------

theorem RowSettled.mono {R R' : LegacyDatabase → LegacyDatabase → Prop}
    {step : Import → Object → Except ImportError Import} (h : RowSettled R step row db)
    (hR : ∀ t, R' db' t → R db t) : RowSettled R' step row db' :=
  fun s hs => h s (hR s.db hs)

/-- The row of an organization, which holds of its identifier and its slug. -/
def OrganizationRow (P : String → String → Prop) (row : Object) : Prop :=
  ∃ id slug, field row "id" = .ok id ∧ field row "slug" = .ok slug ∧ (field row "created_at").isOk = true ∧ P id slug

/-- Every row of an export is settled. -/
structure Imported (env : Env) (importer : Importer) (localOrgId : String) (tables : LegacyTables)
    (db : LegacyDatabase) : Prop where
  organizations : ∀ row ∈ tableRows tables "organization", OrganizationRow (Placed localOrgId · · db) row
  spaces : ∀ row ∈ tableRows tables "space", RowSettled Grows importSpace row db
  documents : ∀ row ∈ tableRows tables "document", RowSettled Grows (importDocument importer) row db
  chunks : ∀ row ∈ tableRows tables "chunk", RowSettled Grows (importChunk importer) row db
  memories : ∀ row ∈ tableRows tables "memory_entry", ∀ now, RowSettled Grows (importMemory env importer now) row db
  parents : Linked ((tableRows tables "memory_entry").flatMap parentLink) db
  relations : ∀ row ∈ tableRows tables "memory_relations", RowSettled SameEnds importRelation row db
  sources : ∀ row ∈ tableRows tables "memory_document_source", RowSettled SameEnds importSource row db
  apiKeys : ∀ row ∈ tableRows tables "apikey", RowSettled SameEnds (importApiKey importer tables) row db

section Loops

variable {step : Import → Object → Except ImportError Import} {rows : List Object}
  {R : LegacyDatabase → LegacyDatabase → Prop}

/-- The rows of a loop are settled after it, if each is settled after its own step. -/
theorem loop_settles {step' : Import → Object → Except ImportError Import} (htrans : ∀ db db' db'', R db db' → R db' db'' → R db db'')
    (hstep : ∀ s row s', step s row = .ok s' → R s.db s'.db)
    (hsettled : ∀ s row s', step s row = .ok s' → RowSettled R step' row s'.db) (h : rows.foldlM step s = .ok s') :
    ∀ row ∈ rows, RowSettled R step' row s'.db := by
  apply Loop.settles (I := fun _ => True) (S := fun row s => RowSettled R step' row s.db) _ _ _ trivial h
  · exact fun _ _ _ _ _ => trivial
  · exact fun row _ s s' _ hrow => hsettled s row s' hrow
  · exact fun s row other s' hold hother => hold.mono fun t ht => htrans _ _ _ (hstep s other s' hother) ht

/-- A loop over settled rows changes nothing. -/
theorem loop_idle {report : LegacyImportReport} (hrefl : R db db) (hsettled : ∀ row ∈ rows, RowSettled R step row db)
    (hs : s.db = db ∧ s.report = report) : ∃ s', rows.foldlM step s = .ok s' ∧ s'.db = db ∧ s'.report = report := by
  apply Loop.completes (I := fun t : Import => t.db = db ∧ t.report = report) _ hs
  rintro row hrow t ⟨rfl, rfl⟩
  exact hsettled row hrow t hrefl

end Loops

theorem loop_pending {step : Import → Object → Except ImportError Import} {rows : List Object}
    (hstep : ∀ s row s', step s row = .ok s' → s'.pendingParents = s.pendingParents) (h : rows.foldlM step s = .ok s') :
    s'.pendingParents = s.pendingParents :=
  Loop.invariant (I := fun t => t.pendingParents = s.pendingParents)
    (fun t row t' ht hrow => (hstep t row t' hrow).trans ht) rfl h

theorem loop_memories {step : Import → Object → Except ImportError Import} {rows : List Object}
    (hstep : ∀ s row s', step s row = .ok s' → s'.db.memories = s.db.memories) (h : rows.foldlM step s = .ok s') :
    s'.db.memories = s.db.memories :=
  Loop.invariant (I := fun t => t.db.memories = s.db.memories)
    (fun t row t' ht hrow => (hstep t row t' hrow).trans ht) rfl h

theorem importMemories_pending {rows : List Object} (h : rows.foldlM (importMemory env importer now) s = .ok s') :
    s'.pendingParents = s.pendingParents ++ rows.flatMap parentLink := by
  induction rows generalizing s with
  | nil =>
    cases Loop.foldlM_nil_ok.mp h
    simp
  | cons row rest ih =>
    obtain ⟨t, hfirst, hrest⟩ := Loop.foldlM_cons_ok.mp h
    rw [ih hrest, (importMemory_grows hfirst).2, List.flatMap_cons, List.append_assoc]

theorem importOrganization_pending {localOrgId : String} (h : importOrganization localOrgId s row = .ok s') :
    s'.pendingParents = s.pendingParents := by
  obtain ⟨_, _, _, _, _, hpending, _⟩ := importOrganization_organizes h
  exact hpending

/-- The parents that an import keeps for the end of its loop over the memories. -/
theorem pending_of_loops {localOrgId : String} {tables : LegacyTables} {s₁ s₂ s₃ s₄ s₅ : Import}
    (hs : s.pendingParents = [])
    (horganizations : (tableRows tables "organization").foldlM (importOrganization localOrgId) s = .ok s₁)
    (hspaces : (tableRows tables "space").foldlM importSpace s₁ = .ok s₂)
    (hdocuments : (tableRows tables "document").foldlM (importDocument importer) s₂ = .ok s₃)
    (hchunks : (tableRows tables "chunk").foldlM (importChunk importer) s₃ = .ok s₄)
    (hmemories : (tableRows tables "memory_entry").foldlM (importMemory env importer now) s₄ = .ok s₅) :
    s₅.pendingParents = (tableRows tables "memory_entry").flatMap parentLink := by
  rw [importMemories_pending hmemories, loop_pending (fun _ _ _ h => (importChunk_grows h).2) hchunks,
    loop_pending (fun _ _ _ h => (importDocument_grows h).2) hdocuments,
    loop_pending (fun _ _ _ h => (importSpace_grows h).2) hspaces,
    loop_pending (fun _ _ _ h => importOrganization_pending h) horganizations, hs, List.nil_append]

theorem importOrganizations_placed {localOrgId : String} {rows : List Object}
    (hrow : ∃ o ∈ s.db.organizations, o.id = localOrgId)
    (hunmarked : ∀ row ∈ rows, ∀ slug, optionalField row "slug" = some slug → Unmarked slug)
    (h : rows.foldlM (importOrganization localOrgId) s = .ok s') :
    ∀ row ∈ rows, OrganizationRow (Placed localOrgId · · s'.db) row := by
  have hsettles : ∀ row ∈ rows, (∃ o ∈ s'.db.organizations, o.id = localOrgId) ∧
      OrganizationRow (Placed localOrgId · · s'.db) row := by
    apply Loop.settles (I := fun s => ∃ o ∈ s.db.organizations, o.id = localOrgId)
      (S := fun row s => (∃ o ∈ s.db.organizations, o.id = localOrgId) ∧
        OrganizationRow (Placed localOrgId · · s.db) row) _ _ _ hrow h
    · intro s row s' hs hone
      obtain ⟨_, _, _, _, _, _, horganized⟩ := importOrganization_organizes hone
      exact horganized.localRow hs
    · intro row hmem s s' hs hone
      obtain ⟨id, slug, hid, hslug, hcreated, _, horganized⟩ := importOrganization_organizes hone
      exact ⟨horganized.localRow hs, id, slug, hid, hslug, hcreated,
        horganized.placed (hunmarked row hmem slug (field_ok hslug))⟩
    · rintro s row other s' ⟨hs, id, slug, hid, hslug, hcreated, hplaced⟩ hone
      obtain ⟨_, _, _, _, _, _, horganized⟩ := importOrganization_organizes hone
      exact ⟨horganized.localRow hs, id, slug, hid, hslug, hcreated, horganized.keeps hs hplaced⟩
  exact fun row hmem => (hsettles row hmem).2

/-- An import that succeeds settles every row of its export. -/
theorem importLegacyTables_settles {localOrgId : String} {tables : LegacyTables} {report : LegacyImportReport}
    (hrow : ∃ o ∈ db.organizations, o.id = localOrgId)
    (hunmarked : ∀ row ∈ tableRows tables "organization", ∀ slug, optionalField row "slug" = some slug → Unmarked slug)
    (h : importLegacyTables env importer now localOrgId tables db = .ok (report, db')) :
    Imported env importer localOrgId tables db' := by
  obtain ⟨s₁, s₂, s₃, s₄, s₅, s₆, s₇, s₈, horganizations, hspaces, hdocuments, hchunks, hmemories, hrelations, hsources,
    hkeys, rfl, rfl, hkept, _⟩ := importLegacyTables_ok h
  -- each loop adds to what the loops before it have left
  have htrans (db db' db'' : LegacyDatabase) : Grows db db' → Grows db' db'' → Grows db db'' := Grows.trans
  have hends (db db' db'' : LegacyDatabase) : SameEnds db db' → SameEnds db' db'' → SameEnds db db'' := SameEnds.trans
  have h₈ := loop_relates .refl hends (fun _ _ _ h => (importApiKey_grows h).1) hkeys
  have h₇ := (loop_relates .refl hends (fun _ _ _ h => (importSource_grows h).1) hsources).trans h₈
  have h₆ := (loop_relates .refl hends (fun _ _ _ h => (importRelation_grows h).1) hrelations).trans h₇
  have h₅ := ((setParents_sameEnds s₅.pendingParents).trans h₆).toGrows
  have h₄ := (loop_relates .refl htrans (fun _ _ _ h => (importMemory_grows h).1) hmemories).trans h₅
  have h₃ := (loop_relates .refl htrans (fun _ _ _ h => (importChunk_grows h).1) hchunks).trans h₄
  have h₂ := (loop_relates .refl htrans (fun _ _ _ h => (importDocument_grows h).1) hdocuments).trans h₃
  have h₁ := (loop_relates .refl htrans (fun _ _ _ h => (importSpace_grows h).1.toGrows) hspaces).trans h₂
  have hpending := pending_of_loops rfl horganizations hspaces hdocuments hchunks hmemories
  have hrows : s₈.db.memories = (setParents s₅.pendingParents s₅.db).memories := by
    rw [loop_memories (fun _ _ _ h => (importApiKey_grows h).2) hkeys,
      loop_memories (fun _ _ _ h => (importSource_grows h).2) hsources,
      loop_memories (fun _ _ _ h => (importRelation_grows h).2) hrelations]
    rfl
  exact
    { organizations := by
        intro row hmem
        obtain ⟨id, slug, hid, hslug, hcreated, hplaced⟩ := importOrganizations_placed hrow hunmarked horganizations row hmem
        exact ⟨id, slug, hid, hslug, hcreated, hplaced.grow hkept h₁⟩
      spaces := fun row hmem =>
        (loop_settles htrans (fun _ _ _ h => (importSpace_grows h).1.toGrows) (fun _ _ _ => importSpace_settled) hspaces
          row hmem).mono fun _ => h₂.trans
      documents := fun row hmem =>
        (loop_settles htrans (fun _ _ _ h => (importDocument_grows h).1) (fun _ _ _ => importDocument_settled) hdocuments
          row hmem).mono fun _ => h₃.trans
      chunks := fun row hmem =>
        (loop_settles htrans (fun _ _ _ h => (importChunk_grows h).1) (fun _ _ _ => importChunk_settled) hchunks
          row hmem).mono fun _ => h₄.trans
      memories := fun row hmem later =>
        (loop_settles htrans (fun _ _ _ h => (importMemory_grows h).1) (fun _ _ _ h => importMemory_settled h later)
          hmemories row hmem).mono fun _ => h₅.trans
      parents := hpending ▸ (linked_setParents s₅.pendingParents s₅.db).of_memories hrows
      relations := fun row hmem =>
        (loop_settles hends (fun _ _ _ h => (importRelation_grows h).1) (fun _ _ _ => importRelation_settled) hrelations
          row hmem).mono fun _ => h₇.trans
      sources := fun row hmem =>
        (loop_settles hends (fun _ _ _ h => (importSource_grows h).1) (fun _ _ _ => importSource_settled) hsources
          row hmem).mono fun _ => h₈.trans
      apiKeys := fun row hmem =>
        loop_settles hends (fun _ _ _ h => (importApiKey_grows h).1) (fun _ _ _ => importApiKey_settled) hkeys row hmem }

/-- Nothing was imported. -/
def LegacyImportReport.zero : LegacyImportReport := ⟨0, 0, 0, 0, 0, 0, 0, 0⟩

/-- An export whose rows are settled is ignored by an import that makes no organization yield. -/
theorem Imported.again {localOrgId localOrgId' : String} {tables : LegacyTables}
    (h : Imported env importer localOrgId tables db) (hends : SameEnds db db') (hmemories : db'.memories = db.memories)
    (hrows : ∀ row ∈ tableRows tables "organization", OrganizationRow (fun id slug => Taken db' id slug ∧
      ∀ o ∈ db'.organizations, ¬ Yields db'.toDatabase localOrgId' id slug o) row) (later : Time) :
    importLegacyTables env importer later localOrgId' tables db' = .ok (.zero, db') := by
  have hlinked : setParents ((tableRows tables "memory_entry").flatMap parentLink) db' = db' :=
    (h.parents.of_memories hmemories).setParents
  have hgrown {step : Import → Object → Except ImportError Import} {row : Object} (hrow : RowSettled Grows step row db) :
      RowSettled Grows step row db' := hrow.mono fun _ => hends.toGrows.trans
  have hended {step : Import → Object → Except ImportError Import} {row : Object} (hrow : RowSettled SameEnds step row db) :
      RowSettled SameEnds step row db' := hrow.mono fun _ => hends.trans
  let s₁ : Import := ⟨db', .zero, [], []⟩
  have horganizations : (tableRows tables "organization").foldlM (importOrganization localOrgId') s₁ = .ok s₁ := by
    have hidle : ∀ row ∈ tableRows tables "organization", ∀ s, s = s₁ →
        ∃ s', importOrganization localOrgId' s row = .ok s' ∧ s' = s₁ := by
      rintro row hmem s rfl
      obtain ⟨id, slug, hid, hslug, hcreated, htaken, hkeeps⟩ := hrows row hmem
      exact ⟨s₁, importOrganization_idle hid hslug hcreated hkeeps htaken, rfl⟩
    obtain ⟨s', hloop, rfl⟩ := Loop.completes (I := fun s => s = s₁) hidle rfl
    exact hloop
  obtain ⟨s₂, hspaces, h₂⟩ := loop_idle (s := s₁) (.refl db') (fun row hmem => hgrown (h.spaces row hmem)) ⟨rfl, rfl⟩
  obtain ⟨s₃, hdocuments, h₃⟩ := loop_idle (.refl db') (fun row hmem => hgrown (h.documents row hmem)) h₂
  obtain ⟨s₄, hchunks, h₄⟩ := loop_idle (.refl db') (fun row hmem => hgrown (h.chunks row hmem)) h₃
  obtain ⟨s₅, hmemories, h₅⟩ := loop_idle (.refl db') (fun row hmem => hgrown (h.memories row hmem later)) h₄
  have hparents : setParents s₅.pendingParents s₅.db = db' := by
    rw [pending_of_loops rfl horganizations hspaces hdocuments hchunks hmemories, h₅.1, hlinked]
  obtain ⟨s₆, hrelations, h₆⟩ := loop_idle (s := { s₅ with db := setParents s₅.pendingParents s₅.db }) (.refl db')
    (fun row hmem => hended (h.relations row hmem)) ⟨hparents, h₅.2⟩
  obtain ⟨s₇, hsources, h₇⟩ := loop_idle (.refl db') (fun row hmem => hended (h.sources row hmem)) h₆
  obtain ⟨s₈, hkeys, hdb, hreport⟩ := loop_idle (.refl db') (fun row hmem => hended (h.apiKeys row hmem)) h₇
  simp only [importLegacyTables, Loop.bind_ok]
  refine ⟨s₁, horganizations, s₂, hspaces, s₃, hdocuments, s₄, hchunks, s₅, hmemories, s₆, hrelations, s₇, hsources,
    s₈, hkeys, ?_⟩
  rw [hdb, hreport]
  rfl

-- ---------------------------------------------------------------------------
-- The slug of the local organization
-- ---------------------------------------------------------------------------

section Slug

variable {localOrgId id slug : String} {o : Organization} {rows : List Object}

/-- A slug is kept or gets longer, and it gets longer when the organization yields. -/
theorem Organized.slug_length (h : Organized localOrgId id slug db db') (ho : o ∈ db.organizations) :
    ∃ o' ∈ db'.organizations, o'.id = o.id ∧ o.slug.length ≤ o'.slug.length ∧
      (Yields db.toDatabase localOrgId id slug o → o.slug.length < o'.slug.length) ∧
      (¬ Yields db.toDatabase localOrgId id slug o → o' = o) := by
  refine ⟨_, h.kept o ho, ?_⟩
  by_cases hyields : Yields db.toDatabase localOrgId id slug o
  · have hlonger : o.slug.length < (markedSlug o).length := by
      have hmark : "-rs-".length = 4 := by decide
      simp only [markedSlug, String.length_append, hmark]
      omega
    rw [if_pos hyields]
    exact ⟨rfl, hlonger.le, fun _ => hlonger, fun hkept => absurd hyields hkept⟩
  · rw [if_neg hyields]
    exact ⟨rfl, le_refl _, fun hyields' => absurd hyields' hyields, fun _ => rfl⟩

theorem importOrganizations_slug_length (h : rows.foldlM (importOrganization localOrgId) s = .ok s')
    (ho : o ∈ s.db.organizations) :
    ∃ o' ∈ s'.db.organizations, o'.id = o.id ∧ o.slug.length ≤ o'.slug.length := by
  apply Loop.invariant (I := fun t : Import => ∃ o' ∈ t.db.organizations, o'.id = o.id ∧ o.slug.length ≤ o'.slug.length)
    _ ⟨o, ho, rfl, le_refl _⟩ h
  rintro t row t' ⟨p, hp, hid, hle⟩ hone
  obtain ⟨_, _, _, _, _, _, horganized⟩ := importOrganization_organizes hone
  obtain ⟨p', hp', hid', hle', _⟩ := horganized.slug_length hp
  exact ⟨p', hp', hid'.trans hid, hle.trans hle'⟩

/-- An organization that has its slug after all organizations were imported has yielded to none of them. -/
theorem importOrganizations_kept (h : rows.foldlM (importOrganization localOrgId) s = .ok s')
    (ho : o ∈ s.db.organizations) (ho' : o ∈ s'.db.organizations) :
    ∀ row ∈ rows, OrganizationRow (fun id slug => ¬ Yields s.db.toDatabase localOrgId id slug o) row := by
  induction rows generalizing s with
  | nil => exact nofun
  | cons row rest ih =>
    obtain ⟨t, hfirst, hrest⟩ := Loop.foldlM_cons_ok.mp h
    obtain ⟨id, slug, hid, hslug, hcreated, _, horganized⟩ := importOrganization_organizes hfirst
    obtain ⟨p, hp, hpid, hle, hlonger, hkept⟩ := horganized.slug_length ho
    obtain ⟨q, hq, hqid, hle'⟩ := importOrganizations_slug_length hrest hp
    obtain rfl : q = o := Table.eq_of_key hq ho' (hqid.trans hpid)
    have hfirstKept : ¬ Yields s.db.toDatabase localOrgId id slug q := by
      intro hyields
      have hlt := hlonger hyields
      omega
    intro r hr
    rcases List.mem_cons.mp hr with rfl | hr
    · exact ⟨id, slug, hid, hslug, hcreated, hfirstKept⟩
    · obtain rfl := hkept hfirstKept
      obtain ⟨id', slug', hid', hslug', hcreated', hkept'⟩ := ih hrest hp r hr
      refine ⟨id', slug', hid', hslug', hcreated', ?_⟩
      rintro ⟨hsame, hother, hlocal, hempty⟩
      exact hkept' ⟨hsame, hother, hlocal, horganized.documents ▸ hempty⟩

end Slug

-- ---------------------------------------------------------------------------
-- Opening the database in between
-- ---------------------------------------------------------------------------

theorem openStorage_sameEnds {orgId : String} {opened : Database}
    (h : openStorage env now db.toDatabase = .ok (orgId, opened)) :
    SameEnds db { db with toDatabase := opened } ∧ opened.memories = db.memories := by
  have hrestates := openStorage_restates h
  obtain ⟨organizations, idsDrawn, _, rfl⟩ := openStorage_ok h
  refine ⟨{ SameEnds.refl db with document := ?_, documents := ?_ }, rfl⟩
  · intro d hd
    have hrow (kind : JobKind) (status : DocumentState) (dbq : Database) {e : Document} (he : e ∈ dbq.documents) :
        ∃ e' ∈ (recoverDocuments dbq kind status).documents, e'.id = e.id ∧ e'.orgId = e.orgId := by
      refine ⟨_, mem_recoverDocuments.mpr ⟨e, he, rfl⟩, ?_⟩
      unfold recovered
      split
      · exact ⟨rfl, rfl⟩
      · exact ⟨rfl, rfl⟩
    obtain ⟨e, he, hid, horg⟩ := hrow .document .queued
      (failStaleMemoryJobs (requeueJobs now { db.toDatabase with organizations, idsDrawn })) hd
    obtain ⟨f, hf, hid', horg'⟩ := hrow .memory .indexing _ he
    exact ⟨f, hf, hid'.trans hid, horg'.trans horg⟩
  · rintro id ⟨d', hd', hid⟩
    obtain ⟨d, hd, heq, _⟩ := hrestates d' hd'
    exact ⟨d, hd, (congrArg Document.id heq).symm.trans hid⟩

theorem openStorage_taken {orgId id slug : String} {opened : Database} (h : Taken db id slug)
    (hopen : openStorage env now db.toDatabase = .ok (orgId, opened)) :
    Taken { db with toDatabase := opened } id slug := by
  have hkept : ∀ o ∈ db.organizations, o ∈ opened.organizations := by
    rcases openStorage_organizations hopen with ⟨_, heq⟩ | ⟨_, hinsert⟩
    · exact fun o ho => heq ▸ ho
    · exact fun o ho => (Table.mem_insert hinsert).mpr (.inl ho)
  rcases h with ⟨o, ho, hid⟩ | ⟨o, ho, hslug⟩
  · exact .inl ⟨o, hkept o ho, hid⟩
  · exact .inr ⟨o, hkept o ho, hslug⟩

theorem openStorage_holdsLocalSlug {orgId : String} {db opened : Database}
    (hopen : openStorage env now db = .ok (orgId, opened)) : HoldsLocalSlug opened orgId := by
  rcases openStorage_organizations hopen with ⟨hholds, heq⟩ | ⟨_, hinsert⟩
  · unfold HoldsLocalSlug at hholds ⊢
    rwa [heq]
  · exact ⟨_, (Table.mem_insert hinsert).mpr (.inr rfl), rfl, rfl⟩

/-- The local organization of a `Storage` is stored. -/
theorem seeded_of_reachable {s : Opened} (h : (openings env importer).Reachable s) :
    Seeded s.db.toDatabase s.localOrgId := by
  induction h with
  | start hinit =>
    obtain ⟨now, db, hunique, hopen⟩ := hinit
    exact (Seeded.of_open hunique hopen).1
  | step _ hstep ih => exact (ih.step hstep).2.1

theorem importLegacyExport_ok {localOrgId : String} {lines : List (Option String)} {report : LegacyImportReport}
    (h : importLegacyExport env importer now localOrgId lines db = .ok (report, db')) :
    ∃ tables, readLines importer 1 lines ([], false) = .ok (tables, true) ∧
      importLegacyTables env importer now localOrgId tables db = .ok (report, db') := by
  simp only [importLegacyExport, Loop.bind_ok] at h
  obtain ⟨⟨tables, complete⟩, hread, h⟩ := h
  split at h
  · rename_i hcomplete
    dsimp only at hcomplete
    exact ⟨tables, hcomplete ▸ hread, h⟩
  · cases h

theorem importLegacyExport_eq {localOrgId : String} {lines : List (Option String)} {tables : LegacyTables}
    (h : readLines importer 1 lines ([], false) = .ok (tables, true)) :
    importLegacyExport env importer now localOrgId lines db = importLegacyTables env importer now localOrgId tables db := by
  unfold importLegacyExport
  rw [h]
  rfl

/-- An export imported again by the same `Storage` changes nothing. Imported again by a `Storage` that was opened in
    the meantime, it changes nothing exactly when it does not displace the local organization of that one. -/
theorem import_again_changes_nothing {s : Opened} (hs : (openings env importer).Reachable s)
    {lines : List (Option String)} (hunmarked : ∀ row ∈ exportedOrganizations importer lines, ∀ slug,
      optionalField row "slug" = some slug → Unmarked slug)
    {report : LegacyImportReport} (himport : importLegacyExport env importer now s.localOrgId lines s.db = .ok (report, db)) :
    (∀ later, importLegacyExport env importer later s.localOrgId lines db = .ok (.zero, db)) ∧
    ∀ reopening id opened, openStorage env reopening db.toDatabase = .ok (id, opened) → ∀ later,
      (importLegacyExport env importer later id lines { db with toDatabase := opened } =
          .ok (.zero, { db with toDatabase := opened }) ↔
        ¬ Displaces importer ⟨{ db with toDatabase := opened }, id⟩ (.importLegacyExport id lines)) := by
  obtain ⟨tables, hread, htables⟩ := importLegacyExport_ok himport
  have hexported : exportedOrganizations importer lines = tableRows tables "organization" := by
    rw [exportedOrganizations, hread]
  rw [hexported] at hunmarked
  have himported := importLegacyTables_settles (seeded_of_reachable hs).row hunmarked htables
  simp only [importLegacyExport_eq hread, Displaces, hexported, true_and]
  constructor
  · apply himported.again (.refl db) rfl
    intro row hmem
    obtain ⟨id, slug, hid, hslug, hcreated, hplaced⟩ := himported.organizations row hmem
    exact ⟨id, slug, hid, hslug, hcreated, hplaced.isTaken, hplaced.keeps⟩
  · intro reopening localOrgId opened hopen later
    obtain ⟨hends, hmemories⟩ := openStorage_sameEnds hopen
    obtain ⟨o, ho, rfl, hlocal⟩ := openStorage_holdsLocalSlug hopen
    constructor
    · -- the slug that was given up is not taken back by a later row
      rintro hagain ⟨⟨row, hmem, hslug, hid⟩, hempty⟩
      obtain ⟨s₁, _, _, _, _, _, _, _, horganizations, _, _, _, _, _, _, _, _, _, hkept, _⟩ := importLegacyTables_ok hagain
      have ho' : o ∈ s₁.db.organizations := hkept ▸ ho
      obtain ⟨id, slug, hid', hslug', _, hkeeps⟩ := importOrganizations_kept horganizations ho ho' row hmem
      obtain rfl := Option.some_inj.mp ((field_ok hslug').symm.trans hslug)
      refine hkeeps ⟨hlocal, ?_, rfl, hempty⟩
      intro hsame
      exact hid (hsame ▸ field_ok hid')
    · intro hkeeps
      apply himported.again hends hmemories
      intro row hmem
      obtain ⟨id, slug, hid, hslug, hcreated, hplaced⟩ := himported.organizations row hmem
      refine ⟨id, slug, hid, hslug, hcreated, openStorage_taken hplaced.isTaken hopen, ?_⟩
      rintro p hp ⟨hsame, hother, hown, hempty⟩
      obtain rfl := Table.eq_of_key hp ho hown
      refine hkeeps ⟨⟨row, hmem, ?_, ?_⟩, hempty⟩
      · rw [field_ok hslug, ← hsame, hlocal]
      · rw [field_ok hid]
        exact fun heq => hother (Option.some_inj.mp heq).symm

/-- The export of one organization under the local slug. -/
theorem import_again_changes_nothing_acme : ∃ report db,
    importLegacyExport unaryEnv twoLines 0 "" twoLineExport firstOpened.db = .ok (report, db) ∧ report.organizations = 1 ∧
    ∀ later, importLegacyExport unaryEnv twoLines later "" twoLineExport db = .ok (.zero, db) := by
  have himports : ∃ r ∈ (importLegacyExport unaryEnv twoLines 0 "" twoLineExport firstOpened.db).toOption,
      r.1.organizations = 1 := by
    decide +kernel
  obtain ⟨⟨report, db⟩, hr, hreport⟩ := himports
  have hunmarked : ∀ row ∈ exportedOrganizations twoLines twoLineExport, ∀ slug,
      optionalField row "slug" = some slug → Unmarked slug := by
    have hlocal : ∀ row ∈ exportedOrganizations twoLines twoLineExport, optionalField row "slug" = some localSlug := by
      decide +kernel
    intro row hrow slug hslug
    obtain rfl := Option.some_inj.mp ((hlocal row hrow).symm.trans hslug)
    unfold Unmarked
    decide
  have himport := Loop.ok_of_mem_toOption hr
  exact ⟨report, db, himport, hreport, (import_again_changes_nothing (.start firstOpened_init) hunmarked himport).1⟩

/-- A parser of the rows of two organizations under the local slug, and the end of an export. -/
def threeLines : Importer where
  fromStr line :=
    if line = "\x7b\"type\":\"row\",\"table\":\"organization\",\"row\":\x7b\"id\":\"globex\",\"slug\":\"local\",\"created_at\":\"2025\"\x7d\x7d" then
      some (.object [("type", .string "row"), ("table", .string "organization"),
        ("row", .object [("id", .string "globex"), ("slug", .string "local"), ("created_at", .string "2025")])])
    else twoLines.fromStr line
  toF32 _ := none
  digest _ := []

def threeLineExport : List (Option String) :=
  some "\x7b\"type\":\"row\",\"table\":\"organization\",\"row\":\x7b\"id\":\"globex\",\"slug\":\"local\",\"created_at\":\"2025\"\x7d\x7d" ::
    twoLineExport

/-- The organization that took the slug is local after the restart, and gives it to the other one. -/
theorem import_again_displaces : (openings unaryEnv threeLines).init firstOpened ∧
    (∀ row ∈ exportedOrganizations threeLines threeLineExport, optionalField row "slug" = some localSlug) ∧
    ∃ report db, importLegacyExport unaryEnv threeLines 0 "" threeLineExport firstOpened.db = .ok (report, db) ∧
    ∃ id opened, openStorage unaryEnv 0 db.toDatabase = .ok (id, opened) ∧
    ∃ report' db', importLegacyExport unaryEnv threeLines 0 id threeLineExport { db with toDatabase := opened } =
        .ok (report', db') ∧ report'.organizations = 1 ∧ db'.organizations ≠ opened.organizations := by
  have hrun : ∃ r ∈ (importLegacyExport unaryEnv threeLines 0 "" threeLineExport firstOpened.db).toOption,
      ∃ o ∈ (openStorage unaryEnv 0 r.2.toDatabase).toOption,
      ∃ r' ∈ (importLegacyExport unaryEnv threeLines 0 o.1 threeLineExport { r.2 with toDatabase := o.2 }).toOption,
        r'.1.organizations = 1 ∧ r'.2.organizations ≠ o.2.organizations := by
    decide +kernel
  obtain ⟨⟨report, db⟩, hr, ⟨id, opened⟩, ho, ⟨report', db'⟩, hr', hcount, hchanged⟩ := hrun
  refine ⟨?_, by decide +kernel, report, db, Loop.ok_of_mem_toOption hr, id, opened, Loop.ok_of_mem_toOption ho,
    report', db', Loop.ok_of_mem_toOption hr', hcount, hchanged⟩
  refine ⟨0, emptySystem.db, fun o ho => absurd ho Table.not_mem_empty, ?_⟩
  decide +kernel

end Storage
