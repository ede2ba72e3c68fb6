-- SUMMARY: A publication replaces the chunks of its document, carries stable identifiers over, and leaves other documents alone.
import Supermemory.Storage.ChunkCandidates
import Supermemory.Storage.Fencing

/-!
# Publication

A publication deletes the chunks of its document and inserts the new ones in order. The
stable identifiers of the deleted rows wait in a map, by position and content, and an
inserted row takes the one at its place. Every other row gets a new identifier.
-/

namespace Storage

variable {env : Env} {now : Time} {db db' : Database}

-- ---------------------------------------------------------------------------
-- Reading chunks
-- ---------------------------------------------------------------------------

/-- A chunk as it is returned. -/
structure DocumentChunk where
  id : String
  content : String
  ordinal : Nat
  deriving DecidableEq

def Chunk.shown (c : Chunk) : DocumentChunk := { id := c.stableId, content := c.content, ordinal := c.ordinal }

/-- `ORDER BY ordinal, id`. -/
def Chunk.before (a b : Chunk) : Prop := a.ordinal < b.ordinal ∨ a.ordinal = b.ordinal ∧ a.id ≤ b.id

instance : DecidableRel Chunk.before := fun _ _ => inferInstanceAs (Decidable (_ ∨ _))

/-- A document's chunks in their order. -/
def documentChunksFor (orgId identifier : String) (db : Database) : Option (List DocumentChunk) :=
  (findIdentifier db orgId identifier).map fun document =>
    ((chunkRows db document.id).insertionSort Chunk.before).map Chunk.shown

-- ---------------------------------------------------------------------------
-- The map of stable identifiers
-- ---------------------------------------------------------------------------

/-- The loop of `insertChunks` with the map as the code uses it: an identifier is taken out. -/
def insertChunksTaking (env : Env) (documentId : String) (embedding : Option (String × Nat)) :
    List ((Nat × String) × String) → Nat → List EmbeddedChunk → Database → Except StorageError Database
  | _, _, [], db => .ok db
  | existing, ordinal, chunk :: rest, db =>
    let inserted :=
      match existing.lookup (ordinal, chunk.content) with
      | some stableId => insertEmbeddedChunk documentId embedding ordinal chunk stableId db
      | none =>
        insertEmbeddedChunk documentId embedding ordinal chunk (env.generateId db.idsDrawn)
          { db with idsDrawn := db.idsDrawn + 1 }
    let remaining := existing.filter fun entry => entry.1 ≠ (ordinal, chunk.content)
    match inserted with
    | .error e => .error e
    | .ok db => insertChunksTaking env documentId embedding remaining (ordinal + 1) rest db

theorem lookup_taken {existing : List ((Nat × String) × String)} {place taken : Nat × String} (h : place ≠ taken) :
    (existing.filter fun entry => entry.1 ≠ taken).lookup place = existing.lookup place := by
  induction existing with
  | nil => rfl
  | cons entry existing ih =>
    by_cases htaken : entry.1 = taken
    · have hne : (place == entry.1) = false := beq_eq_false_iff_ne.mpr (htaken ▸ h)
      rw [List.filter_cons_of_neg (by simpa using htaken), List.lookup_cons, hne, ih]
    · rw [List.filter_cons_of_pos (by simpa using htaken), List.lookup_cons, List.lookup_cons, ih]

/-- What is taken out lies in front of the positions that are still to come. -/
theorem insertChunksTaking_of_lookup {documentId : String} {embedding : Option (String × Nat)} {ordinal : Nat}
    {existing remaining : List ((Nat × String) × String)} (chunks : List EmbeddedChunk) (db : Database)
    (h : ∀ place : Nat × String, ordinal ≤ place.1 → remaining.lookup place = existing.lookup place) :
    insertChunksTaking env documentId embedding remaining ordinal chunks db =
      insertChunks env documentId embedding existing ordinal chunks db := by
  induction chunks generalizing remaining ordinal db with
  | nil => rfl
  | cons chunk rest ih =>
    have hlater : ∀ place : Nat × String, ordinal + 1 ≤ place.1 →
        (remaining.filter fun entry => entry.1 ≠ (ordinal, chunk.content)).lookup place =
          existing.lookup place := by
      intro place hplace
      have hne : place ≠ (ordinal, chunk.content) := by
        intro heq
        rw [heq] at hplace
        exact absurd hplace (Nat.not_succ_le_self ordinal)
      rw [lookup_taken hne]
      exact h place (Nat.le_of_succ_le hplace)
    have hhere := h (ordinal, chunk.content) (le_refl ordinal)
    cases hlookup : existing.lookup (ordinal, chunk.content) with
    | some stableId =>
      cases hinsert : insertEmbeddedChunk documentId embedding ordinal chunk stableId db with
      | error e => simp only [insertChunksTaking, insertChunks, hhere, hlookup, hinsert]
      | ok dbc => simp only [insertChunksTaking, insertChunks, hhere, hlookup, hinsert, ih dbc hlater]
    | none =>
      cases hinsert : insertEmbeddedChunk documentId embedding ordinal chunk (env.generateId db.idsDrawn)
        { db with idsDrawn := db.idsDrawn + 1 } with
      | error e => simp only [insertChunksTaking, insertChunks, hhere, hlookup, hinsert]
      | ok dbc => simp only [insertChunksTaking, insertChunks, hhere, hlookup, hinsert, ih dbc hlater]

/-- No position comes twice, so that taking an identifier out makes no difference. -/
theorem insertChunks_taking (documentId : String) (embedding : Option (String × Nat))
    (existing : List ((Nat × String) × String)) (chunks : List EmbeddedChunk) (db : Database) :
    insertChunks env documentId embedding existing 0 chunks db =
      insertChunksTaking env documentId embedding existing 0 chunks db :=
  (insertChunksTaking_of_lookup chunks db fun _ _ => rfl).symm

theorem existingChunks_nodup (documentId : String)
    (hplace : ∀ c ∈ db.chunks, ∀ c' ∈ db.chunks, c.documentId = c'.documentId → c.ordinal = c'.ordinal → c = c') :
    ((chunkRows db documentId).map (·.ordinal)).Nodup := by
  have hrows : (chunkRows db documentId).Nodup := db.chunks.rows_nodup.filter _
  refine List.Nodup.map_on ?_ hrows
  intro c hc c' hc' hordinal
  obtain ⟨hmem, hdocument⟩ := List.mem_filter.mp hc
  obtain ⟨hmem', hdocument'⟩ := List.mem_filter.mp hc'
  have hdocument : c.documentId = documentId := by simpa using hdocument
  have hdocument' : c'.documentId = documentId := by simpa using hdocument'
  exact hplace c hmem c' hmem' (hdocument.trans hdocument'.symm) hordinal

-- ---------------------------------------------------------------------------
-- Insertion
-- ---------------------------------------------------------------------------

/-- What the engine keeps true of the chunk tables: a position of a document and a stable identifier
    belong to one chunk, and a vector to a chunk that is there. -/
structure ChunkKeys (db : Database) : Prop where
  place : ∀ c ∈ db.chunks, ∀ c' ∈ db.chunks, c.documentId = c'.documentId → c.ordinal = c'.ordinal → c = c'
  stable : ∀ c ∈ db.chunks, ∀ c' ∈ db.chunks, c.stableId = c'.stableId → c = c'
  embedded : ∀ e ∈ db.chunkEmbeddings, ∃ c ∈ db.chunks, c.id = e.chunkId

/-- The row of a chunk's vector. -/
def vectorRow (row : Chunk) (chunk : EmbeddedChunk) (model : String × Nat) : ChunkEmbedding :=
  { chunkId := row.id, modelId := model.1, dimensions := model.2, vector := vectorBytes chunk.vector }

/-- What the insertion of one chunk does to the chunk tables, and which rows were not there. -/
structure InsertsChunk (embedding : Option (String × Nat)) (chunk : EmbeddedChunk) (row : Chunk)
    (db db' : Database) : Prop where
  chunks : db'.chunks.rows = db.chunks.rows ++ [row]
  vectors : db'.chunkEmbeddings.rows =
    db.chunkEmbeddings.rows ++ (embedding.map (vectorRow row chunk)).toList
  place : ∀ c ∈ db.chunks, ¬ (c.documentId = row.documentId ∧ c.ordinal = row.ordinal)
  stable : ∀ c ∈ db.chunks, c.stableId ≠ row.stableId
  idsDrawn : db'.idsDrawn = db.idsDrawn

theorem insertEmbeddedChunk_inserts {documentId stableId : String} {embedding : Option (String × Nat)}
    {ordinal : Nat} {chunk : EmbeddedChunk}
    (h : insertEmbeddedChunk documentId embedding ordinal chunk stableId db = .ok db') :
    ∃ chunkId, InsertsChunk embedding chunk ⟨chunkId, documentId, ordinal, chunk.content, stableId⟩ db db' := by
  unfold insertEmbeddedChunk insertChunk at h
  simp only at h
  split at h
  · cases h
  · rename_i chunkId dbc hchunk
    split at hchunk
    · cases hchunk
    · rename_i hfree
      split at hchunk
      · cases hchunk
      · rename_i chunks hins
        cases hchunk
        have hplace : ∀ c ∈ db.chunks, ¬ (c.documentId = documentId ∧ c.ordinal = ordinal) :=
          fun c hc hsame => hfree ⟨c, hc, .inl hsame⟩
        have hstable : ∀ c ∈ db.chunks, c.stableId ≠ stableId :=
          fun c hc hsame => hfree ⟨c, hc, .inr hsame⟩
        have hrows := Table.insert_rows hins
        split at h
        · cases h
          exact ⟨_, hrows, (List.append_nil _).symm, hplace, hstable, rfl⟩
        · rename_i modelId dimensions
          unfold insertChunkEmbedding at h
          split at h
          · cases h
          · split at h
            · cases h
            · rename_i chunkEmbeddings hvector
              cases h
              exact ⟨_, hrows, Table.insert_rows hvector, hplace, hstable, rfl⟩

namespace ChunkKeys

theorem deleteChunks (h : ChunkKeys db) (id : String) : ChunkKeys (deleteChunks db id) where
  place c hc c' hc' := h.place c (Table.mem_delete.mp hc).1 c' (Table.mem_delete.mp hc').1
  stable c hc c' hc' := h.stable c (Table.mem_delete.mp hc).1 c' (Table.mem_delete.mp hc').1
  embedded e he := by
    obtain ⟨he, hkept⟩ := Table.mem_delete.mp he
    obtain ⟨c, hc, hid⟩ := h.embedded e he
    exact ⟨c, Table.mem_delete.mpr ⟨hc, fun hdocument => hkept ⟨c, hc, hid, hdocument⟩⟩, hid⟩

theorem inserted {embedding : Option (String × Nat)} {chunk : EmbeddedChunk} {row : Chunk} (h : ChunkKeys db)
    (hinsert : InsertsChunk embedding chunk row db db') : ChunkKeys db' := by
  have hmem : ∀ {c : Chunk}, c ∈ db'.chunks → c ∈ db.chunks ∨ c = row := by
    intro c hc
    rw [← Table.mem_rows, hinsert.chunks] at hc
    exact (List.mem_append.mp hc).imp_right List.mem_singleton.mp
  have hold : ∀ {c : Chunk}, c ∈ db.chunks → c ∈ db'.chunks := by
    intro c hc
    rw [← Table.mem_rows, hinsert.chunks]
    exact List.mem_append_left _ hc
  have hrow : row ∈ db'.chunks := by
    rw [← Table.mem_rows, hinsert.chunks]
    exact List.mem_append_right _ (List.mem_singleton_self row)
  refine ⟨?_, ?_, ?_⟩
  · intro c hc c' hc' hdocument hordinal
    rcases hmem hc with hc | rfl <;> rcases hmem hc' with hc' | rfl
    · exact h.place c hc c' hc' hdocument hordinal
    · exact absurd ⟨hdocument, hordinal⟩ (hinsert.place c hc)
    · exact absurd ⟨hdocument.symm, hordinal.symm⟩ (hinsert.place c' hc')
    · rfl
  · intro c hc c' hc' hstable
    rcases hmem hc with hc | rfl <;> rcases hmem hc' with hc' | rfl
    · exact h.stable c hc c' hc' hstable
    · exact absurd hstable (hinsert.stable c hc)
    · exact absurd hstable.symm (hinsert.stable c' hc')
    · rfl
  · intro e he
    rw [← Table.mem_rows, hinsert.vectors] at he
    cases List.mem_append.mp he with
    | inl he =>
      obtain ⟨c, hc, hid⟩ := h.embedded e he
      exact ⟨c, hold hc, hid⟩
    | inr he =>
      obtain ⟨model, -, rfl⟩ := Option.map_eq_some_iff.mp (Option.mem_toList.mp he)
      exact ⟨row, hrow, rfl⟩

end ChunkKeys

/-- An identifier that the loop gives a row: the one that waits at its place, or a new one. -/
def GivenId (env : Env) (existing : List ((Nat × String) × String)) (drawn : Nat) (row : Chunk) : Prop :=
  existing.lookup (row.ordinal, row.content) = some row.stableId ∨
    existing.lookup (row.ordinal, row.content) = none ∧ ∃ n, drawn ≤ n ∧ row.stableId = env.generateId n

/-- The rows that the loop adds, and their vectors. -/
structure InsertsChunks (env : Env) (documentId : String) (embedding : Option (String × Nat))
    (existing : List ((Nat × String) × String)) (ordinal : Nat) (chunks : List EmbeddedChunk) (rows : List Chunk)
    (db db' : Database) : Prop where
  keys : ChunkKeys db'
  stored : db'.chunks.rows = db.chunks.rows ++ rows
  vectors : db'.chunkEmbeddings.rows = db.chunkEmbeddings.rows ++
    (rows.zip chunks).flatMap fun p => (embedding.map (vectorRow p.1 p.2)).toList
  content : rows.map (·.content) = chunks.map (·.content)
  ordinals : rows.map (·.ordinal) = List.range' ordinal chunks.length
  document : ∀ row ∈ rows, row.documentId = documentId
  given : ∀ row ∈ rows, GivenId env existing db.idsDrawn row

theorem insertChunks_inserts {documentId : String} {embedding : Option (String × Nat)} {ordinal : Nat}
    {existing : List ((Nat × String) × String)} {chunks : List EmbeddedChunk} (hkeys : ChunkKeys db)
    (h : insertChunks env documentId embedding existing ordinal chunks db = .ok db') :
    ∃ rows, InsertsChunks env documentId embedding existing ordinal chunks rows db db' := by
  induction chunks generalizing ordinal db with
  | nil =>
    cases h
    exact ⟨[], hkeys, (List.append_nil _).symm, (List.append_nil _).symm, rfl, rfl, by simp, by simp⟩
  | cons chunk rest ih =>
    obtain ⟨stableId, idsDrawn, dbc, hchoice, hinsert, hloop⟩ := insertChunks_cons h
    obtain ⟨chunkId, hinserts⟩ := insertEmbeddedChunk_inserts hinsert
    have hdrawn : db.idsDrawn ≤ dbc.idsDrawn := by
      rw [hinserts.idsDrawn]
      rcases hchoice with ⟨_, rfl⟩ | ⟨_, _, rfl⟩
      · exact le_refl _
      · exact Nat.le_succ _
    have hdraw : ChunkKeys { db with idsDrawn } := ⟨hkeys.place, hkeys.stable, hkeys.embedded⟩
    obtain ⟨rows, hrows⟩ := ih (hdraw.inserted hinserts) hloop
    refine ⟨⟨chunkId, documentId, ordinal, chunk.content, stableId⟩ :: rows, hrows.keys, ?_, ?_, ?_, ?_, ?_, ?_⟩
    · rw [hrows.stored, hinserts.chunks, List.append_assoc, List.singleton_append]
    · rw [hrows.vectors, hinserts.vectors, List.zip_cons_cons, List.flatMap_cons, List.append_assoc]
    · rw [List.map_cons, List.map_cons, hrows.content]
    · rw [List.map_cons, hrows.ordinals, List.length_cons, List.range'_succ]
    · exact List.forall_mem_cons.mpr ⟨rfl, hrows.document⟩
    · refine List.forall_mem_cons.mpr ⟨?_, fun row hrow => ?_⟩
      · rcases hchoice with ⟨hlookup, _⟩ | ⟨hlookup, rfl, _⟩
        · exact .inl hlookup
        · exact .inr ⟨hlookup, db.idsDrawn, le_refl _, rfl⟩
      · exact (hrows.given row hrow).imp_right fun ⟨hlookup, n, hn, hid⟩ => ⟨hlookup, n, hdrawn.trans hn, hid⟩

-- ---------------------------------------------------------------------------
-- A publication that commits
-- ---------------------------------------------------------------------------

/-- No identifier that is still to be generated is one of a stored chunk. -/
def IdsUnused (env : Env) (db : Database) : Prop :=
  ∀ c ∈ db.chunks, ∀ n, db.idsDrawn ≤ n → env.generateId n ≠ c.stableId

section Replaced

variable {documentId : String} {embedding : Option (String × Nat)} {chunks : List EmbeddedChunk} {rows : List Chunk}
variable {existing : List ((Nat × String) × String)} {ordinal : Nat} {db₀ : Database}

theorem InsertsChunks.mem_chunks (h : InsertsChunks env documentId embedding existing ordinal chunks rows db db')
    {c : Chunk} : c ∈ db'.chunks ↔ c ∈ db.chunks ∨ c ∈ rows := by
  rw [← Table.mem_rows, h.stored, List.mem_append]
  rfl

theorem InsertsChunks.mem_vectors (h : InsertsChunks env documentId embedding existing ordinal chunks rows db db')
    {e : ChunkEmbedding} : e ∈ db'.chunkEmbeddings ↔ e ∈ db.chunkEmbeddings ∨
      ∃ p ∈ rows.zip chunks, ∃ model, embedding = some model ∧ e = vectorRow p.1 p.2 model := by
  rw [← Table.mem_rows, h.vectors, List.mem_append, List.mem_flatMap]
  apply or_congr Iff.rfl
  apply exists_congr
  intro p
  simp only [Option.mem_toList, Option.map_eq_some_iff]
  constructor
  · rintro ⟨hp, model, hmodel, rfl⟩
    exact ⟨hp, model, hmodel, rfl⟩
  · rintro ⟨hp, model, hmodel, rfl⟩
    exact ⟨hp, model, hmodel, rfl⟩

/-- A chunk of another document is not among the rows. -/
theorem InsertsChunks.other_id (h : InsertsChunks env documentId embedding existing ordinal chunks rows db db')
    {c row : Chunk} (hc : c ∈ db.chunks) (hother : c.documentId ≠ documentId) (hrow : row ∈ rows) : row.id ≠ c.id := by
  intro hid
  have heq := Table.eq_of_key (h.mem_chunks.mpr (.inr hrow)) (h.mem_chunks.mpr (.inl hc)) hid
  exact hother (heq ▸ h.document row hrow)

/-- Each inserted chunk has its vector, or none has one. -/
theorem InsertsChunks.own_vectors (h : InsertsChunks env documentId embedding existing ordinal chunks rows db db')
    (hkeys : ChunkKeys db) (hgone : ∀ c ∈ db.chunks, c.documentId ≠ documentId) :
    List.Forall₂ (fun c chunk => db'.chunkEmbeddings.find c.id = embedding.map (vectorRow c chunk)) rows chunks := by
  have hlength : rows.length = chunks.length := by
    have := congrArg List.length h.content
    simpa using this
  refine List.forall₂_iff_zip.mpr ⟨hlength, fun {row chunk} hmem => ?_⟩
  have hrow : row ∈ rows := (List.of_mem_zip hmem).1
  cases embedding with
  | some model =>
    exact Table.find_eq_some.mpr ⟨h.mem_vectors.mpr (.inr ⟨(row, chunk), hmem, model, rfl, rfl⟩), rfl⟩
  | none =>
    apply Option.eq_none_iff_forall_ne_some.mpr
    intro e he
    obtain ⟨hmem, hid⟩ := Table.find_eq_some.mp he
    rcases h.mem_vectors.mp hmem with hold | ⟨p, -, model, hnone, -⟩
    · obtain ⟨c, hc, hcid⟩ := hkeys.embedded e hold
      exact h.other_id hc (hgone c hc) hrow (hid.symm.trans hcid.symm)
    · cases hnone

/-- The vectors of other documents' chunks stay. -/
theorem InsertsChunks.other_vectors
    (h : InsertsChunks env documentId embedding existing ordinal chunks rows (deleteChunks db documentId) db')
    {c : Chunk} (hc : c ∈ db.chunks) (hother : c.documentId ≠ documentId) :
    db'.chunkEmbeddings.find c.id = db.chunkEmbeddings.find c.id := by
  have hkept : c ∈ (deleteChunks db documentId).chunks := Table.mem_delete.mpr ⟨hc, hother⟩
  ext e
  rw [Table.find_eq_some, Table.find_eq_some]
  constructor
  · rintro ⟨hmem, hid⟩
    rcases h.mem_vectors.mp hmem with hold | ⟨p, hp, model, -, rfl⟩
    · exact ⟨(Table.mem_delete.mp hold).1, hid⟩
    · exact absurd hid (h.other_id hkept hother (List.of_mem_zip hp).1)
  · rintro ⟨hmem, hid⟩
    refine ⟨h.mem_vectors.mpr (.inl (Table.mem_delete.mpr ⟨hmem, ?_⟩)), hid⟩
    rintro ⟨c', hc', hcid, hdocument⟩
    have heq := Table.eq_of_key hc' hc (hcid.trans hid)
    exact hother (heq ▸ hdocument)

/-- An identifier that waits is one of a row at its place. -/
theorem row_of_lookup {place : Nat × String} {stableId : String}
    (h : (existingChunks db documentId).lookup place = some stableId) :
    ∃ old ∈ chunkRows db documentId, (old.ordinal, old.content) = place ∧ old.stableId = stableId := by
  obtain ⟨_, _, heq, _⟩ := List.lookup_eq_some_iff.mp h
  have hmem : (place, stableId) ∈ existingChunks db documentId := by
    rw [heq]
    simp
  obtain ⟨old, hold, hpair⟩ := List.mem_map.mp hmem
  exact ⟨old, hold, congrArg Prod.fst hpair, congrArg Prod.snd hpair⟩

theorem mem_chunkRows {c : Chunk} : c ∈ chunkRows db documentId ↔ c ∈ db.chunks ∧ c.documentId = documentId := by
  rw [chunkRows, List.mem_filter, decide_eq_true_eq]
  rfl

/-- A row keeps the identifier of the one that it replaces exactly when it has its content. -/
theorem GivenId.kept {c old : Chunk} (h : GivenId env (existingChunks db documentId) db.idsDrawn c)
    (hkeys : ChunkKeys db) (hunused : IdsUnused env db) (hold : old ∈ chunkRows db documentId)
    (hordinal : old.ordinal = c.ordinal) : c.stableId = old.stableId ↔ old.content = c.content := by
  have hlookup := lookup_existingChunks (existingChunks_nodup documentId hkeys.place) hold
  constructor
  · intro hstable
    rcases h with hwaits | ⟨-, n, hn, hnew⟩
    · obtain ⟨old', hold', hplace, hid⟩ := row_of_lookup hwaits
      have heq : old' = old :=
        hkeys.stable old' (mem_chunkRows.mp hold').1 old (mem_chunkRows.mp hold).1 (hid.trans hstable)
      rw [← heq]
      exact (Prod.mk.inj hplace).2
    · exact absurd (hnew.symm.trans hstable) (hunused old (mem_chunkRows.mp hold).1 n hn)
  · intro hcontent
    rw [hordinal, hcontent] at hlookup
    rcases h with hwaits | ⟨hnone, -⟩
    · exact Option.some.inj (hwaits.symm.trans hlookup)
    · rw [hnone] at hlookup
      cases hlookup

/-- A row at a place where nothing with its content was has a new identifier. -/
theorem GivenId.fresh {c : Chunk} (h : GivenId env (existingChunks db documentId) db.idsDrawn c)
    (hunused : IdsUnused env db)
    (hnone : ∀ old ∈ chunkRows db documentId, ¬ (old.ordinal = c.ordinal ∧ old.content = c.content)) :
    ∀ old ∈ db.chunks, old.stableId ≠ c.stableId := by
  rcases h with hwaits | ⟨-, n, hn, hnew⟩
  · obtain ⟨old, hold, hplace, -⟩ := row_of_lookup hwaits
    exact absurd (Prod.mk.inj hplace) (hnone old hold)
  · intro old hold hstable
    exact hunused old hold n hn (hnew.symm.trans hstable.symm)

end Replaced

/-- A publication of `chunks` for a document. -/
structure Replaces (documentId : String) (chunks : List EmbeddedChunk) (embedding : Option (String × Nat))
    (db db' : Database) : Prop where
  /-- Every identifier of the document reads the same chunks. -/
  read : ∀ orgId identifier d, findIdentifier db' orgId identifier = some d → d.id = documentId →
    documentChunksFor orgId identifier db' = some ((chunkRows db' documentId).map Chunk.shown)
  readable : ∃ orgId, (findIdentifier db' orgId documentId).map Document.id = some documentId
  content : (chunkRows db' documentId).map (·.content) = chunks.map (·.content)
  ordinals : (chunkRows db' documentId).map (·.ordinal) = List.range chunks.length
  /-- A chunk has the stable identifier of the one that had its position if that one had its content. -/
  kept : ∀ c ∈ chunkRows db' documentId, ∀ old ∈ chunkRows db documentId, old.ordinal = c.ordinal →
    (c.stableId = old.stableId ↔ old.content = c.content)
  /-- Any other chunk has one that no stored chunk had. -/
  fresh : ∀ c ∈ chunkRows db' documentId,
    (∀ old ∈ chunkRows db documentId, ¬ (old.ordinal = c.ordinal ∧ old.content = c.content)) →
      ∀ old ∈ db.chunks, old.stableId ≠ c.stableId
  distinct : ∀ c ∈ db'.chunks, ∀ c' ∈ db'.chunks, c.stableId = c'.stableId → c = c'
  vectors : List.Forall₂ (fun c chunk => db'.chunkEmbeddings.find c.id = embedding.map (vectorRow c chunk))
    (chunkRows db' documentId) chunks
  others : ∀ id, id ≠ documentId → chunkRows db' id = chunkRows db id
  otherVectors : ∀ c ∈ db.chunks, c.documentId ≠ documentId →
    db'.chunkEmbeddings.find c.id = db.chunkEmbeddings.find c.id

section Publish

variable {job : ClaimedJob} {chunks : List EmbeddedChunk} {embedding : Option (String × Nat)} {schedule : Bool}

/-- What a publication that commits leaves in the tables of chunks and documents. -/
theorem publishJob_tables (hkeys : ChunkKeys db)
    (h : publishJob env now job chunks embedding schedule db = .ok db') :
    db.documentRevision job.documentId = some job.revision ∧
    ∃ rows dbc status, InsertsChunks env job.documentId embedding (existingChunks db job.documentId) 0 chunks rows
        (deleteChunks db job.documentId) dbc ∧
      db'.chunks = dbc.chunks ∧ db'.chunkEmbeddings = dbc.chunkEmbeddings ∧
      db'.documents = (db.setDocumentStatus job.documentId job.revision status).documents := by
  obtain ⟨hcurrent, dbc, hloop, hfinish⟩ := publishJob_inserts h
  obtain ⟨rows, hrows⟩ := insertChunks_inserts (hkeys.deleteChunks job.documentId) hloop
  have hdocuments : dbc.documents = db.documents :=
    ((deleteChunks_same db job.documentId).trans (insertChunks_ok hloop).1).documents
  refine ⟨hcurrent, rows, dbc, if schedule then .indexing else .done, hrows, ?_⟩
  cases schedule with
  | false =>
    obtain rfl : db' = _ := hfinish
    refine ⟨rfl, rfl, ?_⟩
    simp only [Database.setDocumentStatus, finishJob, hdocuments]
    rfl
  | true =>
    obtain ⟨dbj, hinsert, rfl⟩ := hfinish
    obtain ⟨_, jobs, _, rfl⟩ := insertJob_ok hinsert
    refine ⟨rfl, rfl, ?_⟩
    simp only [Database.setDocumentStatus, finishJob, hdocuments]
    rfl

/-- A stored document is found under its own identifier. -/
theorem findIdentifier_self {d : Document} (hd : d ∈ db.documents) :
    (findIdentifier db d.orgId d.id).map Document.id = some d.id := by
  have hcandidate : d ∈ db.documents.rows.filter fun x =>
      x.orgId = d.orgId ∧ (x.id = d.id ∨ x.customId = some d.id) :=
    List.mem_filter.mpr ⟨hd, by simp⟩
  unfold findIdentifier
  simp only
  cases hfind : (db.documents.rows.filter fun x =>
      x.orgId = d.orgId ∧ (x.id = d.id ∨ x.customId = some d.id)).find? fun x => x.id = d.id with
  | none => exact absurd (List.find?_eq_none.mp hfind d hcandidate) (by simp)
  | some x =>
    have hid : x.id = d.id := by simpa using List.find?_some hfind
    exact congrArg some hid

theorem publishJob_replaces (hkeys : ChunkKeys db) (hunused : IdsUnused env db)
    (h : publishJob env now job chunks embedding schedule db = .ok db') :
    Replaces job.documentId chunks embedding db db' := by
  obtain ⟨hcurrent, rows, dbc, status, hrows, hchunks, hvectors, hdocuments⟩ := publishJob_tables hkeys h
  have hgone : ∀ c ∈ (deleteChunks db job.documentId).chunks, c.documentId ≠ job.documentId :=
    fun c hc => (Table.mem_delete.mp hc).2
  have hown : chunkRows db' job.documentId = rows := by
    have hdeleted := chunkRows_deleteChunks db job.documentId
    unfold chunkRows at hdeleted ⊢
    rw [hchunks, hrows.stored, List.filter_append, hdeleted, List.nil_append, List.filter_eq_self]
    exact fun row hrow => decide_eq_true (hrows.document row hrow)
  have hordinals : rows.map (·.ordinal) = List.range chunks.length := by
    rw [hrows.ordinals, List.range_eq_range']
  refine ⟨?_, ?_, ?_, ?_, ?_, ?_, ?_, ?_, ?_, ?_⟩
  · intro orgId identifier d hd hid
    have hsorted : rows.Pairwise Chunk.before := by
      have hincreasing : (rows.map (·.ordinal)).Pairwise (· < ·) := hordinals ▸ List.pairwise_lt_range
      exact (List.pairwise_map.mp hincreasing).imp fun hlt => .inl hlt
    rw [documentChunksFor, hd, Option.map_some, hid, hown, hsorted.insertionSort_eq]
  · obtain ⟨d, hfind, -⟩ := Option.map_eq_some_iff.mp hcurrent
    have hfound : ∃ d', db'.documents.find job.documentId = some d' := by
      rw [hdocuments]
      simp only [Database.setDocumentStatus, Table.find_update, hfind, Option.map_some]
      exact ⟨_, rfl⟩
    obtain ⟨d', hfind'⟩ := hfound
    obtain ⟨hmem, hid⟩ := Table.find_eq_some.mp hfind'
    exact ⟨d'.orgId, hid ▸ findIdentifier_self hmem⟩
  · rw [hown, hrows.content]
  · rw [hown, hordinals]
  · intro c hc old hold hordinal
    exact (hrows.given c (hown ▸ hc)).kept hkeys hunused hold hordinal
  · intro c hc hnone
    exact (hrows.given c (hown ▸ hc)).fresh hunused hnone
  · intro c hc c' hc'
    exact hrows.keys.stable c (hchunks ▸ hc) c' (hchunks ▸ hc')
  · rw [hown, hvectors]
    exact hrows.own_vectors (hkeys.deleteChunks job.documentId) hgone
  · intro id hid
    have hothers := (deleteChunks_same db job.documentId).others id hid
    have hnone : rows.filter (fun c => c.documentId = id) = [] := by
      rw [List.filter_eq_nil_iff]
      intro row hrow hrowid
      exact hid ((of_decide_eq_true hrowid).symm.trans (hrows.document row hrow))
    unfold chunkRows at hothers ⊢
    rw [hchunks, hrows.stored, List.filter_append, hnone, List.append_nil, hothers]
  · intro c hc hother
    rw [hvectors]
    exact hrows.other_vectors hc hother

/-- `publish_job` as the transaction that it is. -/
def publication (env : Env) (now : Time) (job : ClaimedJob) (chunks : List EmbeddedChunk)
    (embedding : Option (String × Nat)) (schedule : Bool) (db : Database) : Except StorageError Answer × Database :=
  commit db ((publishJob env now job chunks embedding schedule db).map (Answer.unit, ·))

theorem publication_ok {answer : Answer}
    (h : (publication env now job chunks embedding schedule db).1 = .ok answer) :
    publishJob env now job chunks embedding schedule db =
      .ok (publication env now job chunks embedding schedule db).2 := by
  unfold publication at h ⊢
  cases hpublish : publishJob env now job chunks embedding schedule db with
  | error e =>
    rw [hpublish] at h
    cases h
  | ok db' => exact rfl

theorem publication_error {e : StorageError}
    (h : (publication env now job chunks embedding schedule db).1 = .error e) :
    (publication env now job chunks embedding schedule db).2 = db := by
  unfold publication at h ⊢
  cases hpublish : publishJob env now job chunks embedding schedule db with
  | error e => exact rfl
  | ok db' =>
    rw [hpublish] at h
    cases h

/-- A publication that commits replaces the chunks of its document and nothing else in the chunk
    tables, and one that fails changes nothing. -/
theorem publication_replaces (hkeys : ChunkKeys db) (hunused : IdsUnused env db) (now : Time) (job : ClaimedJob)
    (chunks : List EmbeddedChunk) (embedding : Option (String × Nat)) (schedule : Bool) :
    (∀ answer, (publication env now job chunks embedding schedule db).1 = .ok answer →
      Replaces job.documentId chunks embedding db
        (publication env now job chunks embedding schedule db).2) ∧
    ∀ e, (publication env now job chunks embedding schedule db).1 = .error e →
      (publication env now job chunks embedding schedule db).2 = db :=
  ⟨fun _ h => publishJob_replaces hkeys hunused (publication_ok h), fun _ h => publication_error h⟩

end Publish

-- ---------------------------------------------------------------------------
-- Runs
-- ---------------------------------------------------------------------------

/-- An identifier that was drawn is not generated again. -/
theorem SoundChunks.idsUnused (h : SoundChunks env db) : IdsUnused env db := by
  intro c hc n hn heq
  obtain ⟨k, hk, hid⟩ := h.drawn c hc
  have := env.generateId_injective (heq.trans hid.symm)
  omega

theorem ChunkKeys.publishJob {job : ClaimedJob} {chunks : List EmbeddedChunk} {embedding : Option (String × Nat)}
    {schedule : Bool} (h : ChunkKeys db) (hpublish : publishJob env now job chunks embedding schedule db = .ok db') :
    ChunkKeys db' := by
  obtain ⟨-, _, _, _, hrows, hchunks, hvectors, -⟩ := publishJob_tables h hpublish
  constructor
  · rw [hchunks]
    exact hrows.keys.place
  · rw [hchunks]
    exact hrows.keys.stable
  · rw [hchunks, hvectors]
    exact hrows.keys.embedded

/-- Chunks come with publications only, and every other call at most deletes some. -/
theorem ChunkKeys.run (h : ChunkKeys db) (hsound : SoundChunks env db) (now : Time) (call : Call) :
    ChunkKeys (call.run env now db).2 := by
  have hsound' := hsound.run now call
  have hplace : ∀ c ∈ (call.run env now db).2.chunks, ∀ c' ∈ (call.run env now db).2.chunks,
      c.documentId = c'.documentId → c.ordinal = c'.ordinal → c = c' := by
    cases hpublished : call.published with
    | none =>
      have hold : ∀ c ∈ (call.run env now db).2.chunks, c ∈ db.chunks := by
        intro c hc
        rcases (RowStep.run env now call db).chunk c hc with hold | ⟨p, hp, -⟩
        · exact hold
        · rw [hpublished] at hp
          cases hp
      exact fun c hc c' hc' => h.place c (hold c hc) c' (hold c' hc')
    | some p =>
      have heffect := call.effect env now db
      generalize call.run env now db = r at heffect ⊢
      cases heffect with
      | failed => exact h.place
      | published _ _ _ hpublish => exact (h.publishJob hpublish).place
      | nothing _ _ hnone =>
        rw [hnone] at hpublished
        cases hpublished
      | _ => cases hpublished
  exact ⟨hplace, hsound'.stable, hsound'.embedded⟩

/-- In every reachable state the engine's keys hold, and no generated identifier comes again. -/
theorem chunkKeys_of_reachable {s : System} (h : (machine env).Reachable s) : ChunkKeys s.db ∧ IdsUnused env s.db := by
  refine ⟨?_, (soundChunks_of_reachable h).idsUnused⟩
  refine (h.invariant (I := fun s => SoundChunks env s.db ∧ ChunkKeys s.db) ?_ ?_).2
  · rintro s ⟨organizations, rfl⟩
    exact ⟨by constructor <;> simp, by constructor <;> simp⟩
  · intro s event s' _ hs hstep
    obtain ⟨_, rfl⟩ := machine_step.mp hstep
    rw [System.after_db]
    exact ⟨hs.1.run event.1 event.2, hs.2.run hs.1 event.1 event.2⟩

/-- A document that was published in two chunks. -/
def indexedNote : Option System :=
  afterCalls [.openStorage, .upsertDocument "" (upsertOf "one two"), .claimJob,
    .completeJob ⟨"xx", "x", "one two", 1⟩ ["one", "two"]]

/-- The same document published in three chunks, of which the last one was the second before. -/
def noteChunks : List EmbeddedChunk := ["one", "three", "two"].map fun content => { content, vector := [0x3f800000] }

theorem publication_replaces_note : ∃ s, indexedNote = some s ∧
    (publication unaryEnv 63871286400 ⟨"xx", "x", "one two", 1⟩ noteChunks (some ("model", 1)) false s.db).1 =
      .ok .unit ∧
    Replaces "x" noteChunks (some ("model", 1)) s.db
      (publication unaryEnv 63871286400 ⟨"xx", "x", "one two", 1⟩ noteChunks (some ("model", 1)) false s.db).2 := by
  have hrun : ∃ s ∈ indexedNote,
      (publication unaryEnv 63871286400 ⟨"xx", "x", "one two", 1⟩ noteChunks (some ("model", 1)) false s.db).1 =
        .ok .unit := by
    decide +kernel
  obtain ⟨s, hs, hok⟩ := hrun
  obtain ⟨hkeys, hunused⟩ := chunkKeys_of_reachable (afterCalls_reachable hs)
  have hreplaces := publication_replaces hkeys hunused 63871286400 ⟨"xx", "x", "one two", 1⟩ noteChunks
    (some ("model", 1)) false
  exact ⟨s, hs, hok, hreplaces.1 .unit hok⟩

end Storage
