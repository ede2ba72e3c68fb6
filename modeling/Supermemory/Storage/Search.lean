-- SUMMARY: Searching the chunks of done documents, and why no hit shows an earlier revision.
import Supermemory.Storage.Consistency

/-!
# Search

Every search joins the chunks with the documents that are done. What the engine
computes for a row (the rank of a text match, the product of two vectors, a filter
on metadata) is a parameter.
-/

namespace Storage

/-- A search result. -/
structure SearchHit (σ : Type*) where
  id : String
  documentId : String
  chunk : String
  score : σ
  position : Nat
  customId : Option String
  metadata : Object
  filepath : Option String
  documentContent : String

/-- Organization-local document constraints applied before semantic ranking. -/
structure SearchOptions (φ : Type*) where
  containerTags : List String
  documentId : Option String
  filepath : Option String
  filters : Option φ

section Engine

variable {σ φ : Type*}

/-- `documents JOIN document_chunks WHERE documents.org_id=? AND documents.status='done'`. -/
def doneChunks (db : Database) (orgId : String) : List (Chunk × Document) :=
  db.chunks.rows.filterMap fun c =>
    ((db.documents.find c.documentId).filter fun d => d.orgId = orgId ∧ d.status = .done).map
      fun d => (c, d)

/-- The rows that have a score, each with its score. -/
def scored (score : Chunk → Document → Option σ) (rows : List (Chunk × Document)) :
    List (Chunk × Document × σ) :=
  rows.filterMap fun (c, d) => (score c d).map fun s => (c, d, s)

def readHit (score : σ) (c : Chunk) (d : Document) : SearchHit σ :=
  { id := c.stableId
    documentId := d.id
    chunk := c.content
    score
    position := c.ordinal
    customId := d.customId
    metadata := d.metadata
    filepath := d.filepath
    documentContent := d.content }

/-- Lexically searches one explicit organization. `bm25` is the rank of a row of the full-text
    index, if the phrase matches it; smaller is better. -/
def searchFor [LinearOrder σ] [Neg σ] (bm25 : List Chunk → String → Chunk → Option σ) (orgId query : String)
    (limit : Nat) (db : Database) : List (SearchHit σ) :=
  let phrase := "\"" ++ query.replace "\"" "\"\"" ++ "\""
  let rows := scored (fun c _ => bm25 db.chunks.rows phrase c) (doneChunks db orgId)
  let better : Chunk × Document × σ → Chunk × Document × σ → Prop := fun a b =>
    a.2.2 < b.2.2 ∨ a.2.2 = b.2.2 ∧ a.1.ordinal ≤ b.1.ordinal
  have : DecidableRel better := fun _ _ => inferInstanceAs (Decidable (_ ∨ _))
  ((rows.insertionSort better).take limit).map fun (c, d, s) => readHit (-s) c d

/-- `documents.filepath` is the path, or starts with a path that ends in a slash. -/
def matchesFilepath (path : String) (d : Document) : Prop :=
  ∃ stored ∈ d.filepath, stored = path ∨ path.toList.getLast? = some '/' ∧
    stored.toList.take (path.length - 1) = path.toList.take (path.length - 1)

instance (path : String) : DecidablePred (matchesFilepath path) := fun d =>
  match h : d.filepath with
  | none => isFalse (by simp [matchesFilepath, h])
  | some stored => decidable_of_iff (stored = path ∨ path.toList.getLast? = some '/' ∧
      stored.toList.take (path.length - 1) = path.toList.take (path.length - 1))
      (by simp [matchesFilepath, h])

/-- The constraints of `SearchOptions` in the order of the query. -/
def SearchOptions.Allows (matchesMetadataFilter : Object → φ → Bool) (options : SearchOptions φ)
    (d : Document) : Prop :=
  (options.containerTags = [] ∨ ∃ tag ∈ d.containerTags, tag ∈ options.containerTags) ∧
  (∀ id ∈ options.documentId, d.id = id ∨ d.customId = some id) ∧
  (∀ path ∈ options.filepath, matchesFilepath path d) ∧
  (∀ filter ∈ options.filters, matchesMetadataFilter d.metadata filter = true)

instance (matchesMetadataFilter : Object → φ → Bool) (options : SearchOptions φ) :
    DecidablePred (options.Allows matchesMetadataFilter) := fun _ => inferInstanceAs (Decidable (_ ∧ _))

/-- Searches current chunks by exact cosine similarity over normalized vectors. -/
def searchSemantic [LinearOrder σ] (env : Env) (vectorDot : List (BitVec 8) → List (BitVec 8) → σ)
    (matchesMetadataFilter : Object → φ → Bool) (orgId : String) (query : List F32) (modelId : String)
    (limit : Nat) (threshold : σ) (options : SearchOptions φ) (db : Database) :
    Except StorageError (List (SearchHit σ)) :=
  match validateVector env query query.length with
  | .error e => .error e
  | .ok () =>
    let score : Chunk → Document → Option σ := fun c d =>
      ((db.chunkEmbeddings.find c.id).filter fun e =>
          e.modelId = modelId ∧ e.dimensions = query.length ∧
            options.Allows matchesMetadataFilter d ∧ threshold ≤ vectorDot e.vector (vectorBytes query)).map
        fun e => vectorDot e.vector (vectorBytes query)
    let better : Chunk × Document × σ → Chunk × Document × σ → Prop := fun a b =>
      b.2.2 < a.2.2 ∨ a.2.2 = b.2.2 ∧ (a.2.1.id < b.2.1.id ∨ a.2.1.id = b.2.1.id ∧
        (a.1.ordinal < b.1.ordinal ∨ a.1.ordinal = b.1.ordinal ∧ a.1.stableId ≤ b.1.stableId))
    have : DecidableRel better := fun _ _ => inferInstanceAs (Decidable (_ ∨ _))
    .ok ((((scored score (doneChunks db orgId)).insertionSort better).take limit).map
      fun (c, d, s) => readHit s c d)

variable {db : Database} {orgId : String}

theorem mem_doneChunks {c : Chunk} {d : Document} :
    (c, d) ∈ doneChunks db orgId ↔
      c ∈ db.chunks ∧ d ∈ db.documents ∧ d.id = c.documentId ∧ d.orgId = orgId ∧ d.status = .done := by
  simp only [doneChunks, List.mem_filterMap, Table.mem_rows, Option.map_eq_some_iff,
    Option.filter_eq_some_iff, Table.find_eq_some, Prod.mk.injEq, decide_eq_true_eq]
  constructor
  · rintro ⟨c, hc, d, ⟨⟨hd, hid⟩, horg, hdone⟩, rfl, rfl⟩
    exact ⟨hc, hd, hid, horg, hdone⟩
  · rintro ⟨hc, hd, hid, horg, hdone⟩
    exact ⟨c, hc, d, ⟨⟨hd, hid⟩, horg, hdone⟩, rfl, rfl⟩

theorem mem_scored {score : Chunk → Document → Option σ} {rows : List (Chunk × Document)}
    {c : Chunk} {d : Document} {s : σ} (h : (c, d, s) ∈ scored score rows) : (c, d) ∈ rows := by
  obtain ⟨⟨c', d'⟩, hrow, hscore⟩ := List.mem_filterMap.mp h
  obtain ⟨s', _, heq⟩ := Option.map_eq_some_iff.mp hscore
  cases heq
  exact hrow

/-- A hit comes from a chunk of a done document of the organization. -/
structure FromDone (db : Database) (orgId : String) (hit : SearchHit σ) : Prop where
  row : ∃ c d, c ∈ db.chunks ∧ d ∈ db.documents ∧ d.id = c.documentId ∧ d.orgId = orgId ∧
    d.status = .done ∧ hit.documentId = d.id ∧ hit.chunk = c.content ∧ hit.documentContent = d.content

theorem fromDone_of_scored {score : Chunk → Document → Option σ} {c : Chunk} {d : Document} {s t : σ}
    (h : (c, d, s) ∈ scored score (doneChunks db orgId)) : FromDone db orgId (readHit t c d) := by
  obtain ⟨hc, hd, hid, horg, hdone⟩ := mem_doneChunks.mp (mem_scored h)
  exact ⟨c, d, hc, hd, hid, horg, hdone, rfl, rfl, rfl⟩

theorem searchFor_fromDone [LinearOrder σ] [Neg σ] {bm25 : List Chunk → String → Chunk → Option σ} {query : String}
    {limit : Nat} {hit : SearchHit σ} (h : hit ∈ searchFor bm25 orgId query limit db) :
    FromDone db orgId hit := by
  obtain ⟨⟨c, d, s⟩, hrow, rfl⟩ := List.mem_map.mp h
  exact fromDone_of_scored (List.mem_insertionSort _ |>.mp (List.mem_of_mem_take hrow))

theorem searchSemantic_fromDone [LinearOrder σ] {env : Env} {vectorDot : List (BitVec 8) → List (BitVec 8) → σ}
    {matchesMetadataFilter : Object → φ → Bool} {query : List F32} {modelId : String} {limit : Nat}
    {threshold : σ} {options : SearchOptions φ} {hits : List (SearchHit σ)}
    (h : searchSemantic env vectorDot matchesMetadataFilter orgId query modelId limit threshold options
      db = .ok hits) {hit : SearchHit σ} (hhit : hit ∈ hits) : FromDone db orgId hit := by
  unfold searchSemantic at h
  split at h
  · cases h
  · cases h
    obtain ⟨⟨c, d, s⟩, hrow, rfl⟩ := List.mem_map.mp hhit
    exact fromDone_of_scored (List.mem_insertionSort _ |>.mp (List.mem_of_mem_take hrow))

end Engine

/-! ## No stale hits -/

variable {env : Env} {s : System}

/-- A chunk of a done document was written by a publication of the document's revision. -/
theorem Consistent.chunk_published (h : Consistent env s) {c : Chunk} {d : Document}
    (hc : c ∈ s.db.chunks) (hd : d ∈ s.db.documents) (hid : d.id = c.documentId)
    (hdone : d.status = .done) :
    ∃ p ∈ s.publications, p.job.documentId = d.id ∧ p.job.revision = d.revision ∧
      p.job.content = d.content ∧ c ∈ p.rows := by
  obtain ⟨p, hp, hpid, hprev, hpcontent, hrows⟩ := h.donePublished d hd hdone
  refine ⟨p, hp, hpid, hprev, hpcontent, ?_⟩
  rw [← hrows]
  exact List.mem_filter.mpr ⟨hc, by simpa using hid.symm⟩

/-- The text of a hit was published with a handle of its document's current revision and content. -/
def IsCurrent {σ : Type*} (s : System) (orgId : String) (hit : SearchHit σ) : Prop :=
  ∃ d ∈ s.db.documents, d.id = hit.documentId ∧ d.orgId = orgId ∧ d.content = hit.documentContent ∧
    ∃ p ∈ s.publications, p.job.documentId = d.id ∧ p.job.revision = d.revision ∧
      p.job.content = d.content ∧ hit.chunk ∈ p.chunks

theorem Consistent.isCurrent {σ : Type*} {orgId : String} {hit : SearchHit σ} (h : Consistent env s)
    (hhit : FromDone s.db orgId hit) : IsCurrent s orgId hit := by
  obtain ⟨c, d, hc, hd, hid, horg, hdone, hdocument, hchunk, hcontent⟩ := hhit
  obtain ⟨p, hp, hpid, hprev, hpcontent, hrow⟩ := h.chunk_published hc hd hid hdone
  refine ⟨d, hd, hdocument.symm, horg, hcontent.symm, p, hp, hpid, hprev, hpcontent, ?_⟩
  rw [hchunk, ← (h.published p hp).2.1]
  exact List.mem_map_of_mem hrow

/-- A done document holds the rows of one publication, made with a handle of its current revision
    and content; so no search returns text computed from an earlier revision. -/
theorem done_chunks_current (h : (machine env).Reachable s) :
    (∀ d ∈ s.db.documents, d.status = .done → ∃ p ∈ s.publications, p.job ∈ s.jobs ∧
      p.job.documentId = d.id ∧ p.job.revision = d.revision ∧ p.job.content = d.content ∧
      chunkRows s.db d.id = p.rows ∧ p.rows.map (·.content) = p.chunks ∧
      p.rows.map (·.ordinal) = List.range p.chunks.length) ∧
    (∀ {σ : Type} [LinearOrder σ] [Neg σ] (bm25 : List Chunk → String → Chunk → Option σ)
      (orgId query : String) (limit : Nat), ∀ hit ∈ searchFor bm25 orgId query limit s.db,
        IsCurrent s orgId hit) ∧
    (∀ {σ φ : Type} [LinearOrder σ] (vectorDot : List (BitVec 8) → List (BitVec 8) → σ)
      (matchesMetadataFilter : Object → φ → Bool) (orgId : String) (query : List F32) (modelId : String)
      (limit : Nat) (threshold : σ) (options : SearchOptions φ) (hits : List (SearchHit σ)),
        searchSemantic env vectorDot matchesMetadataFilter orgId query modelId limit threshold options
          s.db = .ok hits → ∀ hit ∈ hits, IsCurrent s orgId hit) := by
  have hs := consistent_of_reachable h
  refine ⟨?_, ?_, ?_⟩
  · intro d hd hdone
    obtain ⟨p, hp, hpid, hprev, hpcontent, hrows⟩ := hs.donePublished d hd hdone
    obtain ⟨hjob, hcontents, hordinals⟩ := hs.published p hp
    exact ⟨p, hp, hjob, hpid, hprev, hpcontent, hrows, hcontents, hordinals⟩
  · intro σ _ _ bm25 orgId query limit hit hhit
    exact hs.isCurrent (searchFor_fromDone hhit)
  · intro σ φ _ vectorDot matchesMetadataFilter orgId query modelId limit threshold options hits hsearch
    exact fun hit hhit => hs.isCurrent (searchSemantic_fromDone hsearch hhit)

/-- One document, indexed with one chunk. -/
def indexedOnce : Option System :=
  afterCalls [.openStorage, .upsertDocument "" (upsertOf "a fact"), .claimJob,
    .completeJob ⟨"xx", "x", "a fact", 1⟩ ["a fact"]]

theorem done_chunks_current_indexedOnce : ∃ s, indexedOnce = some s ∧
    (∃ d ∈ s.db.documents, d.status = .done ∧ d.content = "a fact") ∧
    ∃ p ∈ s.publications, p.job.content = "a fact" ∧ p.chunks = ["a fact"] := by
  obtain ⟨s, hs⟩ : ∃ s, indexedOnce = some s := Option.isSome_iff_exists.mp (by decide +kernel)
  have hdone : ∀ s ∈ indexedOnce, ∃ d ∈ s.db.documents.rows, d.status = .done ∧ d.content = "a fact" := by
    decide +kernel
  obtain ⟨d, hd, hstatus, hcontent⟩ := hdone s hs
  obtain ⟨p, hp, _, _, _, hpcontent, _⟩ := (done_chunks_current (afterCalls_reachable hs)).1 d hd hstatus
  have hchunks : ∀ s ∈ indexedOnce, ∀ p ∈ s.publications, p.chunks = ["a fact"] := by decide +kernel
  exact ⟨s, hs, ⟨d, hd, hstatus, hcontent⟩, p, hp, hpcontent.trans hcontent, hchunks s hs p hp⟩

end Storage
