-- SUMMARY: Ranking memories by vector and by text under visibility switches, and reading the ranked memories with their context.
import Supermemory.Storage.Memories
import Supermemory.Storage.MemorySteps

/-!
# Memory search

A ranking joins the memories of one container with their vectors. Four switches widen what
it sees beyond the latest, remembered, unexpired memories with an active vector. Hydration
reads the ranked memories again, by identifier alone.
-/

namespace Storage

-- ---------------------------------------------------------------------------
-- Visibility
-- ---------------------------------------------------------------------------

/-- Independent visibility controls for historical memory states. -/
structure MemoryVisibility where
  includeForgotten : Bool
  includeExpired : Bool
  includeSuperseded : Bool
  includeInactiveEmbeddings : Bool
  deriving DecidableEq

/-- `MemoryVisibility::default()`. -/
def defaultVisibility : MemoryVisibility := ⟨false, false, false, false⟩

/-- The visibility of `search_memories`, whose caller has one switch. -/
def searchMemoriesVisibility (includeForgotten : Bool) : MemoryVisibility :=
  ⟨includeForgotten, includeForgotten, includeForgotten, includeForgotten⟩

/-- The visibility conditions of the memory queries. -/
def MemoryVisibility.Shows (env : Env) (now : Time) (visibility : MemoryVisibility) (m : Memory) (active : Bool) :
    Prop :=
  (active = true ∨ visibility.includeInactiveEmbeddings = true) ∧
  (m.isLatest = true ∨ visibility.includeSuperseded = true) ∧
  (m.isForgotten = false ∨ visibility.includeForgotten = true) ∧
  (Unexpired env now m ∨ visibility.includeExpired = true)

instance (env : Env) (now : Time) (visibility : MemoryVisibility) (m : Memory) (active : Bool) :
    Decidable (visibility.Shows env now m active) := inferInstanceAs (Decidable (_ ∧ _))

/-- `memory_embeddings.active=1`, which is not true of a memory without vector. -/
def hasActiveVector (db : Database) (id : String) : Bool := (db.memoryEmbeddings.find id).any (·.active)

/-- The memories of a container that a ranking can see. -/
def shownMemories (env : Env) (now : Time) (orgId containerTag : String) (visibility : MemoryVisibility)
    (db : Database) : List Memory :=
  db.memories.rows.filter fun m => m.orgId = orgId ∧ m.containerTag = containerTag ∧
    visibility.Shows env now m (hasActiveVector db m.id)

-- ---------------------------------------------------------------------------
-- Ranking
-- ---------------------------------------------------------------------------

/-- Narrow semantic memory candidate used before hydration and response projection. -/
structure MemoryCandidate (σ : Type*) where
  id : String
  semanticScore : Option σ
  lexicalRank : Option Nat
  deriving DecidableEq

section Engine

variable {σ : Type*}

/-- The memories that have a score, each with its score. -/
def scoredMemories (score : Memory → Option σ) (rows : List Memory) : List (String × σ) :=
  rows.filterMap fun m => (score m).map fun s => (m.id, s)

/-- The score of a memory whose vector is of the model and close enough to the query. -/
def semanticScore [LinearOrder σ] (vectorDot : List (BitVec 8) → List (BitVec 8) → σ) (query : List F32)
    (modelId : String) (threshold : σ) (db : Database) (m : Memory) : Option σ :=
  ((db.memoryEmbeddings.find m.id).filter fun e =>
      e.modelId = modelId ∧ e.dimensions = query.length ∧ threshold ≤ vectorDot e.vector (vectorBytes query)).map
    fun e => vectorDot e.vector (vectorBytes query)

/-- Ranks memories without materializing memory records or relation context. -/
def searchMemoryCandidates [LinearOrder σ] (env : Env) (now : Time)
    (vectorDot : List (BitVec 8) → List (BitVec 8) → σ) (orgId : String) (query : List F32)
    (modelId containerTag : String) (limit : Nat) (threshold : σ) (visibility : MemoryVisibility) (db : Database) :
    Except StorageError (List (MemoryCandidate σ)) :=
  match validateVector env query query.length with
  | .error e => .error e
  | .ok () =>
    let better : String × σ → String × σ → Prop := fun a b => b.2 < a.2 ∨ a.2 = b.2 ∧ a.1 ≤ b.1
    have : DecidableRel better := fun _ _ => inferInstanceAs (Decidable (_ ∨ _))
    let rows := scoredMemories (semanticScore vectorDot query modelId threshold db)
      (shownMemories env now orgId containerTag visibility db)
    .ok (((rows.insertionSort better).take limit).map
      fun (id, s) => { id, semanticScore := some s, lexicalRank := none })

/-- A query as one quoted phrase, never as search syntax. -/
def ftsPhrase (query : String) : String := "\"" ++ query.replace "\"" "\"\"" ++ "\""

/-- Lexically ranks visible memories without materializing their facts. `bm25` is the rank of a row of the
    full-text index, if the phrase matches it; smaller is better. -/
def searchMemoryLexicalCandidates [LinearOrder σ] (env : Env) (now : Time)
    (bm25 : List Memory → String → Memory → Option σ) (orgId query containerTag : String) (limit : Nat)
    (visibility : MemoryVisibility) (db : Database) : List (MemoryCandidate σ) :=
  let better : String × σ → String × σ → Prop := fun a b => a.2 < b.2 ∨ a.2 = b.2 ∧ a.1 ≤ b.1
  have : DecidableRel better := fun _ _ => inferInstanceAs (Decidable (_ ∨ _))
  let rows := scoredMemories (bm25 db.memories.rows (ftsPhrase query))
    (shownMemories env now orgId containerTag visibility db)
  ((rows.insertionSort better).take limit).zipIdx.map
    fun ((id, _), rank) => { id, semanticScore := none, lexicalRank := some (rank + 1) }

-- ---------------------------------------------------------------------------
-- Hydration
-- ---------------------------------------------------------------------------

/-- One memory connected through the lineage graph. -/
structure MemoryRelationHit where
  relation : String
  version : Nat
  memory : String
  metadata : Object
  updatedAt : Time
  deriving DecidableEq

/-- Source document attached to a memory. -/
structure MemorySourceDocument where
  id : String
  title : Option String
  documentType : Option String
  metadata : Object
  summary : Option String
  deriving DecidableEq

/-- Exact semantic memory search result. -/
structure MemorySearchHit (σ : Type*) where
  record : MemoryRecord
  similarity : σ
  parents : List MemoryRelationHit
  children : List MemoryRelationHit
  related : List MemoryRelationHit
  documents : List MemorySourceDocument
  deriving DecidableEq

/-- Selects optional context to batch-hydrate for ranked memory hits. -/
structure MemoryHydration where
  relations : Bool
  documents : Bool
  deriving DecidableEq

/-- The columns that only hydration reads. -/
structure ContextColumns where
  title : Document → Option String
  documentType : Document → Option String
  summary : Document → Option String
  sourceCreatedAt : MemorySource → Time

/-- `ORDER BY memories.version, memories.updated_at, memories.id`. -/
def olderMemory (a b : MemoryRelation × Memory) : Prop :=
  a.2.version < b.2.version ∨ a.2.version = b.2.version ∧
    (a.2.updatedAt < b.2.updatedAt ∨ a.2.updatedAt = b.2.updatedAt ∧ a.2.id ≤ b.2.id)

instance : DecidableRel olderMemory := fun _ _ => inferInstanceAs (Decidable (_ ∨ _))

/-- The first two relations of a memory, seen from the column that holds it. -/
def relationHits (owner related : MemoryRelation → String) (db : Database) (id : String) : List MemoryRelationHit :=
  let rows := (db.memoryRelations.rows.filter fun r => owner r = id).filterMap fun r =>
    (db.memories.find (related r)).map fun m => (r, m)
  ((rows.insertionSort olderMemory).take 2).map fun (r, m) =>
    { relation := r.relation, version := m.version, memory := m.content, metadata := m.metadata, updatedAt := m.updatedAt }

/-- The first source document of a memory. -/
def sourceDocuments (columns : ContextColumns) (db : Database) (id : String) : List MemorySourceDocument :=
  let earlier : MemorySource × Document → MemorySource × Document → Prop := fun a b =>
    columns.sourceCreatedAt a.1 < columns.sourceCreatedAt b.1 ∨
      columns.sourceCreatedAt a.1 = columns.sourceCreatedAt b.1 ∧ a.2.id ≤ b.2.id
  have : DecidableRel earlier := fun _ _ => inferInstanceAs (Decidable (_ ∨ _))
  let rows := (db.memorySources.rows.filter fun source => source.memoryId = id).filterMap fun source =>
    (db.documents.find source.documentId).map fun d => (source, d)
  ((rows.insertionSort earlier).take 1).map fun (_, d) =>
    { id := d.customId.getD d.id
      title := columns.title d
      documentType := columns.documentType d
      metadata := d.metadata
      summary := columns.summary d }

def hydrateMemoryHit (columns : ContextColumns) (hydration : MemoryHydration) (db : Database)
    (hit : MemorySearchHit σ) : MemorySearchHit σ :=
  let parents := if hydration.relations then relationHits (·.childId) (·.parentId) db hit.record.id else []
  let children := if hydration.relations then relationHits (·.parentId) (·.childId) db hit.record.id else []
  { hit with
    parents := hit.parents ++ parents
    children := hit.children ++ children
    related := hit.related ++ (parents ++ children).filter fun r => r.relation = "extends" ∨ r.relation = "derives"
    documents := hit.documents ++ if hydration.documents then sourceDocuments columns db hit.record.id else [] }

/-- Of several hits of one memory, the last one takes the context. -/
def hydrateMemoryHits (columns : ContextColumns) (hydration : MemoryHydration) (db : Database) :
    List (MemorySearchHit σ) → List (MemorySearchHit σ)
  | [] => []
  | hit :: rest =>
    (if hit.record.id ∈ rest.map (·.record.id) then hit else hydrateMemoryHit columns hydration db hit) ::
      hydrateMemoryHits columns hydration db rest

/-- The score of the last candidate of a memory. -/
def memoryScore [Zero σ] (candidates : List (MemoryCandidate σ)) (id : String) : σ :=
  ((candidates.reverse.find? fun candidate => candidate.id = id).bind (·.semanticScore)).getD 0

/-- Hydrates selected memory candidates in their original ranking order. -/
def hydrateMemories [Zero σ] (columns : ContextColumns) (candidates : List (MemoryCandidate σ))
    (hydration : MemoryHydration) (db : Database) : List (MemorySearchHit σ) :=
  hydrateMemoryHits columns hydration db (candidates.filterMap fun candidate =>
    (db.memories.find candidate.id).map fun m =>
      { record := readMemory m
        similarity := memoryScore candidates m.id
        parents := []
        children := []
        related := []
        documents := [] })

-- ---------------------------------------------------------------------------
-- What a ranking sees
-- ---------------------------------------------------------------------------

variable {env : Env} {now : Time} {db db' : Database} {orgId containerTag : String} {visibility : MemoryVisibility}
  {candidates : List (MemoryCandidate σ)} {limit : Nat}

theorem mem_shownMemories {m : Memory} : m ∈ shownMemories env now orgId containerTag visibility db ↔
    m ∈ db.memories ∧ m.orgId = orgId ∧ m.containerTag = containerTag ∧
      visibility.Shows env now m (hasActiveVector db m.id) := by
  simp [shownMemories]

theorem mem_scoredMemories {score : Memory → Option σ} {rows : List Memory} {id : String} {s : σ} :
    (id, s) ∈ scoredMemories score rows ↔ ∃ m ∈ rows, m.id = id ∧ score m = some s := by
  simp only [scoredMemories, List.mem_filterMap, Option.map_eq_some_iff, Prod.mk.injEq]
  constructor
  · rintro ⟨m, hm, s', hs, hid, rfl⟩
    exact ⟨m, hm, hid, hs⟩
  · rintro ⟨m, hm, hid, hs⟩
    exact ⟨m, hm, s, hs, hid, rfl⟩

theorem scoredMemories_length {score : Memory → Option σ} :
    (scoredMemories score (shownMemories env now orgId containerTag visibility db)).length ≤ db.memories.rows.length :=
  Nat.le_trans (List.length_filterMap_le _ _) (List.length_filter_le _ _)

/-- The ranked memories have a score, and all of them are ranked if the limit allows. -/
theorem searchMemoryCandidates_ok [LinearOrder σ] {vectorDot : List (BitVec 8) → List (BitVec 8) → σ}
    {query : List F32} {modelId : String} {threshold : σ}
    (h : searchMemoryCandidates env now vectorDot orgId query modelId containerTag limit threshold visibility db =
      .ok candidates) :
    let scores := scoredMemories (semanticScore vectorDot query modelId threshold db)
      (shownMemories env now orgId containerTag visibility db)
    (∀ k ∈ candidates, k.id ∈ scores.map (·.1)) ∧
      (db.memories.rows.length ≤ limit → ∀ id ∈ scores.map (·.1), id ∈ candidates.map (·.id)) := by
  unfold searchMemoryCandidates at h
  split at h
  · cases h
  · cases h
    refine ⟨?_, ?_⟩
    · intro k hk
      obtain ⟨row, hrow, rfl⟩ := List.mem_map.mp hk
      exact List.mem_map_of_mem ((List.mem_insertionSort _).mp (List.mem_of_mem_take hrow))
    · intro hlimit id hid
      obtain ⟨row, hrow, rfl⟩ := List.mem_map.mp hid
      rw [List.map_map]
      apply List.mem_map.mpr ⟨row, _, rfl⟩
      rw [List.take_of_length_le]
      · exact (List.mem_insertionSort _).mpr hrow
      · rw [List.length_insertionSort]
        exact Nat.le_trans scoredMemories_length hlimit

theorem searchMemoryLexicalCandidates_ranked [LinearOrder σ] {bm25 : List Memory → String → Memory → Option σ}
    {query : String} :
    let candidates := searchMemoryLexicalCandidates env now bm25 orgId query containerTag limit visibility db
    let scores := scoredMemories (bm25 db.memories.rows (ftsPhrase query))
      (shownMemories env now orgId containerTag visibility db)
    (∀ k ∈ candidates, k.id ∈ scores.map (·.1)) ∧
      (db.memories.rows.length ≤ limit → ∀ id ∈ scores.map (·.1), id ∈ candidates.map (·.id)) := by
  refine ⟨?_, ?_⟩
  · intro k hk
    obtain ⟨⟨row, rank⟩, hrow, rfl⟩ := List.mem_map.mp hk
    have hranked := List.mem_of_mem_take (List.fst_mem_of_mem_zipIdx hrow)
    exact List.mem_map_of_mem ((List.mem_insertionSort _).mp hranked)
  · intro hlimit id hid
    obtain ⟨row, hrow, rfl⟩ := List.mem_map.mp hid
    simp only [searchMemoryLexicalCandidates]
    rw [List.take_of_length_le, List.map_map]
    · change row.1 ∈ List.map (Prod.fst ∘ Prod.fst) (List.zipIdx _)
      rw [← List.map_map, List.zipIdx_map_fst]
      exact List.mem_map.mpr ⟨row, (List.mem_insertionSort _).mpr hrow, rfl⟩
    · rw [List.length_insertionSort]
      exact Nat.le_trans scoredMemories_length hlimit

/-- A memory with a score is a stored one that the ranking sees. -/
theorem shown_of_scored {score : Memory → Option σ} {id : String}
    (h : id ∈ (scoredMemories score (shownMemories env now orgId containerTag visibility db)).map (·.1)) :
    ∃ m ∈ shownMemories env now orgId containerTag visibility db, m.id = id ∧ (score m).isSome = true := by
  obtain ⟨⟨_, s⟩, hrow, rfl⟩ := List.mem_map.mp h
  obtain ⟨m, hm, hid, hscore⟩ := mem_scoredMemories.mp hrow
  exact ⟨m, hm, hid, Option.isSome_iff_exists.mpr ⟨s, hscore⟩⟩

theorem scored_of_shown {score : Memory → Option σ} {m : Memory}
    (hm : m ∈ shownMemories env now orgId containerTag visibility db) (hscore : (score m).isSome = true) :
    m.id ∈ (scoredMemories score (shownMemories env now orgId containerTag visibility db)).map (·.1) := by
  obtain ⟨s, hs⟩ := Option.isSome_iff_exists.mp hscore
  exact List.mem_map.mpr ⟨(m.id, s), mem_scoredMemories.mpr ⟨m, hm, rfl, hs⟩, rfl⟩

/-- Hydration only reads the stored rows of the candidates. -/
theorem hydrateMemories_records [Zero σ] {columns : ContextColumns} {hydration : MemoryHydration} :
    (hydrateMemories columns candidates hydration db).map (·.record) =
      candidates.filterMap fun candidate => (db.memories.find candidate.id).map readMemory := by
  have hrecords (hits : List (MemorySearchHit σ)) :
      (hydrateMemoryHits columns hydration db hits).map (·.record) = hits.map (·.record) := by
    induction hits with
    | nil => rfl
    | cons hit rest ih =>
      rw [hydrateMemoryHits, List.map_cons, List.map_cons, ih]
      split
      · rfl
      · rfl
  rw [hydrateMemories, hrecords, List.map_filterMap]
  simp only [Option.map_map]
  rfl

-- ---------------------------------------------------------------------------
-- Forgotten memories
-- ---------------------------------------------------------------------------

section Forgotten

variable {forgetOrgId forgetTag memoryId : String} {id content reason : Option String} {earlier later : Time}

/-- Forgetting sets all the columns that a visibility looks at. -/
theorem forgetMemoryFor_shows
    (h : forgetMemoryFor env now forgetOrgId id content forgetTag reason db = .ok (memoryId, db')) {m : Memory}
    (hm : m ∈ db'.memories) (hid : m.id = memoryId) :
    visibility.Shows env later m (hasActiveVector db' m.id) ↔ visibility.includeInactiveEmbeddings = true ∧
      visibility.includeSuperseded = true ∧ visibility.includeForgotten = true ∧
        (isFuture env later (env.timestamp now) ∨ visibility.includeExpired = true) := by
  have hwithdraws := forgetMemoryFor_withdraws h
  obtain ⟨m₀, _, rfl⟩ := (hwithdraws.memories m).mp hm
  have hkey := (hwithdraws.withdrawal.becomes_ite [memoryId] m₀).id
  rw [if_pos (List.mem_singleton.mpr (hkey.symm.trans hid))]
  have hinactive : hasActiveVector db' (forgotten env now reason m₀).id = false := by
    apply Bool.eq_false_iff.mpr
    intro hactive
    obtain ⟨e, hfind, hactive⟩ := (Option.any_eq_true _ _).mp hactive
    obtain ⟨he, hown⟩ := Table.find_eq_some.mp hfind
    obtain ⟨e₀, _, rfl⟩ := (hwithdraws.embeddings e).mp he
    split at hactive
    · cases hactive
    · rename_i hother
      rw [if_neg hother] at hown
      exact hother (List.mem_singleton.mpr (hown.trans (hkey.symm.trans hid)))
  rw [hinactive]
  simp [MemoryVisibility.Shows, forgotten, Unexpired]

/-- A memory keeps its vector when it is forgotten. -/
theorem forgetMemoryFor_semanticScore [LinearOrder σ] {vectorDot : List (BitVec 8) → List (BitVec 8) → σ}
    {query : List F32} {modelId : String} {threshold : σ}
    (h : forgetMemoryFor env now forgetOrgId id content forgetTag reason db = .ok (memoryId, db')) {m m' : Memory}
    (hid : m'.id = m.id) :
    semanticScore vectorDot query modelId threshold db' m' = semanticScore vectorDot query modelId threshold db m := by
  obtain ⟨_, _, _, _, rfl⟩ := forgetMemoryFor_ok h
  unfold semanticScore
  rw [hid]
  dsimp only
  rw [Table.find_update]
  cases db.memoryEmbeddings.find m.id with
  | none => rfl
  | some e =>
    simp only [Option.map_some]
    split
    · simp only [Option.filter_some]
      split <;> rfl
    · rfl

/-- A memory that the search found is found again after it is forgotten if and only if the visibility includes all
    that forgetting makes of a memory. -/
theorem forgotten_found_iff [LinearOrder σ] {vectorDot : List (BitVec 8) → List (BitVec 8) → σ} {query : List F32}
    {modelId : String} {threshold : σ} {visibility : MemoryVisibility} {before after : List (MemoryCandidate σ)}
    (hbefore : searchMemoryCandidates env earlier vectorDot orgId query modelId containerTag limit threshold
      defaultVisibility db = .ok before)
    (hfound : memoryId ∈ before.map (·.id)) (hlimit : db.memories.rows.length ≤ limit)
    (hforget : forgetMemoryFor env now forgetOrgId id content forgetTag reason db = .ok (memoryId, db'))
    (hafter : searchMemoryCandidates env later vectorDot orgId query modelId containerTag limit threshold visibility
      db' = .ok after) :
    memoryId ∈ after.map (·.id) ↔ visibility.includeInactiveEmbeddings = true ∧ visibility.includeSuperseded = true ∧
      visibility.includeForgotten = true ∧
        (isFuture env later (env.timestamp now) ∨ visibility.includeExpired = true) := by
  obtain ⟨k, hk, rfl⟩ := List.mem_map.mp hfound
  obtain ⟨m, hm, hid, hscore⟩ := shown_of_scored ((searchMemoryCandidates_ok hbefore).1 k hk)
  obtain ⟨hmem, horg, hcontainer, _⟩ := mem_shownMemories.mp hm
  obtain ⟨m', hm', hbecomes⟩ := (forgetMemoryFor_withdraws hforget).becomes hmem
  have hid' : m'.id = k.id := hbecomes.id.trans hid
  obtain ⟨hranked, hall⟩ := searchMemoryCandidates_ok hafter
  constructor
  · intro hagain
    obtain ⟨k', hk', hsame⟩ := List.mem_map.mp hagain
    obtain ⟨shown, hshown, hidShown, _⟩ := shown_of_scored (hranked k' hk')
    obtain ⟨hstored, _, _, hshows⟩ := mem_shownMemories.mp hshown
    exact (forgetMemoryFor_shows hforget hstored (hidShown.trans hsame)).mp hshows
  · intro hopen
    have hlength : db'.memories.rows.length = db.memories.rows.length := by
      obtain ⟨_, _, _, _, rfl⟩ := forgetMemoryFor_ok hforget
      exact List.length_map _
    apply hall (hlength ▸ hlimit)
    rw [← hid']
    apply scored_of_shown
    · apply mem_shownMemories.mpr
      refine ⟨hm', hbecomes.profile.1.trans horg, hbecomes.profile.2.trans hcontainer, ?_⟩
      exact (forgetMemoryFor_shows hforget hm' hid').mpr hopen
    · rw [forgetMemoryFor_semanticScore hforget hbecomes.id, hscore]

end Forgotten

end Engine

end Storage
