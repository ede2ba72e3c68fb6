-- SUMMARY: The V4 search: retrieval of memories and chunks by vector and by text, rank fusion, selection, hydration and budget.
import Mathlib.Algebra.Order.Ring.Int
import Supermemory.Library.Loop
import Supermemory.Library.Selection
import Supermemory.Server.SearchEngine
import Supermemory.Storage.MemorySearch

/-!
# The V4 search

`search` ranks memories and chunks independently, by the vector of the query and by its
text, and fuses the four rankings. It selects candidates, reads them again by identifier,
and admits the results that fit the response, in the order of the selection.
-/

namespace Server

open Storage

-- ---------------------------------------------------------------------------
-- Requests and results
-- ---------------------------------------------------------------------------

inductive SearchMode where
  | memories | hybrid | documents
  deriving DecidableEq

structure SearchInclude where
  documents : Bool
  summaries : Bool
  relatedMemories : Bool
  forgottenMemories : Bool
  chunks : Bool

structure SearchRequest (σ : Type) where
  q : String
  limit : Nat
  threshold : σ
  containerTag : Option String
  filters : Option Value
  included : SearchInclude
  rerank : Bool
  aggregate : Bool
  searchMode : SearchMode
  filepath : Option String

/-- Validated application-level search input. -/
structure SearchQuery (σ φ : Type) where
  text : String
  mode : SearchMode
  limit : Nat
  threshold : σ
  options : SearchOptions φ
  includeForgotten : Bool
  includeDocuments : Bool
  includeSummaries : Bool
  includeRelated : Bool
  /-- When set, return at most one best chunk per document. -/
  aggregate : Bool

structure SearchContext where
  parents : List MemoryRelationHit
  children : List MemoryRelationHit
  related : List MemoryRelationHit
  deriving DecidableEq

structure SearchDocument where
  id : String
  title : Option String
  documentType : Option String
  metadata : Option Object
  summary : Option String
  deriving DecidableEq

structure MemorySearchResult (σ : Type) where
  id : String
  memory : String
  metadata : Option Object
  updatedAt : Time
  similarity : σ
  version : Nat
  rootMemoryId : Option String
  context : SearchContext
  documents : List SearchDocument
  chunks : List Value
  deriving DecidableEq

structure ChunkSearchResult (σ : Type) where
  id : String
  chunk : String
  metadata : Option Object
  filepath : Option String
  similarity : σ
  version : Nat
  context : SearchContext
  documents : List SearchDocument
  chunks : List Value
  deriving DecidableEq

inductive SearchResult (σ : Type) where
  | memory (result : MemorySearchResult σ)
  | chunk (result : ChunkSearchResult σ)
  deriving DecidableEq

/-- The key of a result among those of one response. -/
def SearchResult.id {σ : Type} : SearchResult σ → String
  | .memory result => "m:" ++ result.id
  | .chunk result => "c:" ++ result.id

/-- What the V4 search computes outside the store. -/
structure HybridEngine (σ φ : Type) extends SearchEngine σ φ where
  memoryBm25 : List Memory → String → Memory → Option σ
  columns : ContextColumns
  /-- `1.0 / (RRF_K + rank as f64)`. -/
  reciprocalRank : Nat → σ
  /-- The length of a result in the response, if it serializes. -/
  serializedLen : SearchResult σ → Option Nat

-- ---------------------------------------------------------------------------
-- Retrieval
-- ---------------------------------------------------------------------------

section Pipeline

variable {σ φ : Type}

/-- Lexical ranking is valuable for identifiers and exact facts. -/
def lexicalIntent (query : String) : Bool :=
  query.toList.any fun c => c.isDigit || c ∈ ['"', '\'', '_', '-', '/', '@', '#'] || c.isUpper

/-- The visibility of the memory rankings. -/
def SearchQuery.visibility (query : SearchQuery σ φ) : MemoryVisibility :=
  { defaultVisibility with includeForgotten := query.includeForgotten }

def SearchQuery.containerTag (query : SearchQuery σ φ) : String :=
  query.options.containerTags.head?.getD "sm_project_default"

def SearchQuery.candidateLimit (query : SearchQuery σ φ) : Nat := max 20 (min (query.limit * 5) 500)

def SearchQuery.memoryMode (query : SearchQuery σ φ) : Bool := query.mode ≠ .documents

def SearchQuery.documentMode (query : SearchQuery σ φ) : Bool := query.mode ≠ .memories

def SearchQuery.lexicalMode (query : SearchQuery σ φ) (vector : Option (List F32)) : Bool :=
  vector.isNone || query.mode = .hybrid || lexicalIntent query.text

/-- The four independent rankings. -/
structure Evidence (σ : Type) where
  semanticMemories : List (MemoryCandidate σ)
  lexicalMemories : List (MemoryCandidate σ)
  semanticChunks : List (ChunkCandidate σ)
  lexicalChunks : List (ChunkCandidate σ)

/-- A ranking that only runs in some modes, by the vector of the query if there is one. -/
def semanticRanking {α : Type} (mode : Bool) (vector : Option (List F32))
    (rank : List F32 → Except StorageError (List α)) : Except ApiError (List α) :=
  match mode, vector with
  | true, some vector => (rank vector).mapError .storage
  | _, _ => .ok []

def retrieve [LinearOrder σ] (env : Env) (now : Time) (engine : HybridEngine σ φ) (organization : String)
    (query : SearchQuery σ φ) (vector : Option (List F32)) (db : Database) : Except ApiError (Evidence σ) := do
  let semanticMemories ← semanticRanking query.memoryMode vector fun vector =>
    searchMemoryCandidates env now engine.vectorDot organization vector bgeModelId query.containerTag
      query.candidateLimit query.threshold query.visibility db
  let semanticChunks ← semanticRanking query.documentMode vector fun vector =>
    searchChunkCandidates env engine.vectorDot engine.matchesMetadataFilter organization vector bgeModelId
      query.candidateLimit query.threshold query.options db
  .ok
    { semanticMemories
      semanticChunks
      lexicalMemories :=
        if query.memoryMode && query.lexicalMode vector then
          searchMemoryLexicalCandidates env now engine.memoryBm25 organization query.text query.containerTag
            query.candidateLimit query.visibility db
        else []
      lexicalChunks :=
        if query.documentMode && query.lexicalMode vector then
          searchChunkLexicalCandidates engine.bm25 engine.matchesMetadataFilter organization query.text
            query.candidateLimit query.options db
        else [] }

-- ---------------------------------------------------------------------------
-- Fusion and selection
-- ---------------------------------------------------------------------------

inductive RankedCandidate (σ : Type) where
  | memory (candidate : MemoryCandidate σ)
  | chunk (candidate : ChunkCandidate σ)
  deriving DecidableEq

namespace RankedCandidate

def id : RankedCandidate σ → String
  | memory candidate => "m:" ++ candidate.id
  | chunk candidate => "c:" ++ candidate.stableId

def documentId : RankedCandidate σ → Option String
  | memory _ => none
  | chunk candidate => some candidate.documentId

def score [Zero σ] : RankedCandidate σ → σ
  | memory candidate => candidate.semanticScore.getD 0
  | chunk candidate => candidate.semanticScore.getD 0

def withScore (candidate : RankedCandidate σ) (score : σ) : RankedCandidate σ :=
  match candidate with
  | memory candidate => memory { candidate with semanticScore := some score }
  | chunk candidate => chunk { candidate with semanticScore := some score }

/-- Extracted memories are denser evidence than source chunks. -/
def kind : RankedCandidate σ → Nat
  | memory _ => 0
  | chunk _ => 1

/-- `compare_ranked_candidates` does not put the second candidate first. -/
def before [LinearOrder σ] [Zero σ] (left right : RankedCandidate σ) : Prop :=
  right.score < left.score ∨ left.score = right.score ∧
    (left.kind < right.kind ∨ left.kind = right.kind ∧ left.id ≤ right.id)

instance [LinearOrder σ] [Zero σ] : DecidableRel (before (σ := σ)) := fun _ _ => inferInstanceAs (Decidable (_ ∨ _))

end RankedCandidate

/-- Adds the reciprocal rank of a candidate to its total. -/
def addEvidence [Add σ] (reciprocalRank : Nat → σ) (fused : List (RankedCandidate σ × σ))
    (evidence : RankedCandidate σ × Nat) : List (RankedCandidate σ × σ) :=
  if fused.any fun entry => entry.1.id = evidence.1.id then
    fused.map fun entry =>
      if entry.1.id = evidence.1.id then (entry.1, entry.2 + reciprocalRank evidence.2) else entry
  else fused ++ [(evidence.1, reciprocalRank evidence.2)]

/-- The candidates of all rankings with their ranks, in the order in which they are fused. -/
def Evidence.ranked (evidence : Evidence σ) : List (RankedCandidate σ × Nat) :=
  (evidence.semanticMemories.zipIdx.map fun (candidate, rank) => (.memory candidate, rank + 1)) ++
  (evidence.lexicalMemories.map fun candidate => (.memory candidate, candidate.lexicalRank.getD 1)) ++
  (evidence.semanticChunks.zipIdx.map fun (candidate, rank) => (.chunk candidate, rank + 1)) ++
  (evidence.lexicalChunks.map fun candidate => (.chunk candidate, candidate.lexicalRank.getD 1))

def fuseCandidates [Add σ] (reciprocalRank : Nat → σ) (evidence : Evidence σ) : List (RankedCandidate σ) :=
  (evidence.ranked.foldl (addEvidence reciprocalRank) []).map fun (candidate, score) => candidate.withScore score

/-- Takes candidates up to the limit. Aggregation admits one chunk a document. -/
def selectDiverse (aggregate : Bool) : Nat → List String → List (RankedCandidate σ) → List (RankedCandidate σ)
  | 0, _, _ => []
  | _, _, [] => []
  | limit + 1, documents, candidate :: rest =>
    if aggregate ∧ ∃ id ∈ candidate.documentId, id ∈ documents then selectDiverse aggregate (limit + 1) documents rest
    else candidate :: selectDiverse aggregate limit (candidate.documentId.toList ++ documents) rest

def selectCandidates [LinearOrder σ] [Zero σ] [Add σ] (engine : HybridEngine σ φ) (query : SearchQuery σ φ)
    (evidence : Evidence σ) : List (RankedCandidate σ) :=
  selectDiverse query.aggregate query.limit []
    ((fuseCandidates engine.reciprocalRank evidence).insertionSort RankedCandidate.before)

-- ---------------------------------------------------------------------------
-- Projection
-- ---------------------------------------------------------------------------

/-- The relations of the response: two, whose memories differ by more than case. -/
def shownRelations (env : Env) (includeRelated : Bool) (relations : List MemoryRelationHit) : List MemoryRelationHit :=
  if includeRelated then
    (relations.eraseDupsBy fun a b => env.toLowercase a.memory.toList = env.toLowercase b.memory.toList).take 2
  else []

def memorySearchResult [LinearOrder σ] [One σ] [Mul σ] (env : Env) (hit : MemorySearchHit σ) (boost : σ)
    (includeDocuments includeSummaries includeRelated : Bool) : MemorySearchResult σ :=
  { id := hit.record.id
    memory := hit.record.memory
    metadata := some hit.record.metadata
    updatedAt := hit.record.updatedAt
    similarity := min (hit.similarity * boost) 1
    version := hit.record.version
    rootMemoryId := hit.record.rootMemoryId
    context :=
      { parents := shownRelations env includeRelated hit.parents
        children := shownRelations env includeRelated hit.children
        related := shownRelations env includeRelated hit.related }
    documents := if includeDocuments then (hit.documents.take 1).map fun document =>
        { id := document.id
          title := document.title
          documentType := document.documentType
          metadata := some document.metadata
          summary := if includeSummaries then document.summary else none }
      else []
    chunks := [] }

def chunkSearchResult (hit : SearchHit σ) : ChunkSearchResult σ :=
  { id := hit.id
    chunk := hit.chunk
    metadata := some hit.metadata
    filepath := hit.filepath
    similarity := hit.score
    version := 1
    context := { parents := [], children := [], related := [] }
    documents := [
      { id := hit.customId.getD hit.documentId
        title := metadataString hit.metadata "title"
        documentType := metadataString hit.metadata "type"
        metadata := some hit.metadata
        summary := none }]
    chunks := [] }

def memorySelection (selected : List (RankedCandidate σ)) : List (MemoryCandidate σ) :=
  selected.filterMap fun
    | .memory candidate => some candidate
    | .chunk _ => none

def chunkSelection (selected : List (RankedCandidate σ)) : List (ChunkCandidate σ) :=
  selected.filterMap fun
    | .memory _ => none
    | .chunk candidate => some candidate

/-- The results of all hits under their keys, the latest insertion first. -/
def resultsById [LinearOrder σ] [Zero σ] [One σ] [Mul σ] (env : Env) (engine : HybridEngine σ φ)
    (query : SearchQuery σ φ) (selected : List (RankedCandidate σ)) (db : Database) : List (SearchResult σ) :=
  let memoryHits := hydrateMemories engine.columns (memorySelection selected)
    { relations := query.includeRelated, documents := query.includeDocuments } db
  let chunkHits := hydrateChunks (chunkSelection selected) false db
  let memoryResult (hit : MemorySearchHit σ) := memorySearchResult env hit hit.similarity query.includeDocuments
    query.includeSummaries query.includeRelated
  (memoryHits.map (fun hit => SearchResult.memory (memoryResult hit)) ++
    chunkHits.map fun hit => SearchResult.chunk (chunkSearchResult hit)).reverse

/-- Takes the result of each selected candidate, in the order of the selection. -/
def takeResults : List (RankedCandidate σ) → List (SearchResult σ) → List (SearchResult σ)
  | [], _ => []
  | candidate :: rest, results =>
    match results.find? fun result => result.id = candidate.id with
    | none => takeResults rest results
    | some result => result :: takeResults rest (results.filter fun other => other.id ≠ candidate.id)

-- ---------------------------------------------------------------------------
-- Budget
-- ---------------------------------------------------------------------------

def searchContextBudgetBytes : Nat := 5000

/-- Reserve enough budget for at least one later complete result. -/
def maxResultContextBytes : Nat := searchContextBudgetBytes / 2

def SearchResult.reduceOptionalFields : SearchResult σ → SearchResult σ
  | memory result => memory { result with context := ⟨[], [], []⟩, documents := [], chunks := [], metadata := none }
  | chunk result => chunk { result with context := ⟨[], [], []⟩, documents := [], chunks := [], metadata := none }

/-- The length of a result, and `usize::MAX` for one that does not serialize. -/
def contextBytes (serializedLen : SearchResult σ → Option Nat) (result : SearchResult σ) : Nat :=
  (serializedLen result).getD (2 ^ 64 - 1)

/-- Admits complete results within the remaining budget. Optional fields are removed before a result is
    rejected. -/
def fitSearchContext (serializedLen : SearchResult σ → Option Nat) : Nat → List (SearchResult σ) → List (SearchResult σ)
  | _, [] => []
  | remaining, result :: rest =>
    let result := if contextBytes serializedLen result > remaining then result.reduceOptionalFields else result
    let bytes := contextBytes serializedLen result
    if bytes > remaining ∨ bytes > maxResultContextBytes then fitSearchContext serializedLen remaining rest
    else result :: fitSearchContext serializedLen (remaining - bytes) rest

-- ---------------------------------------------------------------------------
-- The search
-- ---------------------------------------------------------------------------

/-- What the first read of a search selects. -/
def rankHybrid [LinearOrder σ] [Zero σ] [Add σ] (env : Env) (now : Time) (engine : HybridEngine σ φ)
    (organization : String) (query : SearchQuery σ φ) (db : Database) : Except ApiError (List (RankedCandidate σ)) := do
  let vector ← engine.embedQuery query.text
  let evidence ← retrieve env now engine organization query vector db
  .ok (selectCandidates engine query evidence)

/-- Retrieves independent lexical and semantic evidence from what is committed at first, fuses ranks, applies
    exact deduplication and diversity, and only then hydrates selected rows, from what is committed then. -/
def HybridEngine.search [LinearOrder σ] [Zero σ] [One σ] [Add σ] [Mul σ] (env : Env) (now : Time)
    (engine : HybridEngine σ φ) (organization : String) (query : SearchQuery σ φ) (ranked hydrated : Database) :
    Except ApiError (List (SearchResult σ)) := do
  let selected ← rankHybrid env now engine organization query ranked
  let results := takeResults selected (resultsById env engine query selected hydrated)
  .ok (fitSearchContext engine.serializedLen searchContextBudgetBytes results)

/-- Why a search request is refused. -/
inductive SearchError where
  | rerankingUnavailable
  | api (error : ApiError)
  deriving DecidableEq

def validateContainerTag (containerTag : Option String) : Except ApiError Unit :=
  if containerTag.any fun tag => tag.length > 100 || tag = "" ||
      ! tag.toList.all fun c => c.isAlphanum || c ∈ ['_', ':', '-'] then
    .error (.validation "containerTag may only contain up to 100 alphanumeric characters, hyphens, underscores, and colons")
  else .ok ()

/-- The mode of a request: asking for chunks widens the search. -/
def SearchRequest.mode (request : SearchRequest σ) : SearchMode :=
  if request.included.chunks ∧ request.searchMode = .memories then .hybrid else request.searchMode

def SearchRequest.query (request : SearchRequest σ) (filters : Option φ) : SearchQuery σ φ :=
  { text := String.ofList (Text.trim request.q.toList)
    mode := request.mode
    limit := request.limit
    threshold := request.threshold
    options :=
      { containerTags := [request.containerTag.getD "sm_project_default"]
        documentId := none
        filepath := request.filepath
        filters }
    includeForgotten := request.included.forgottenMemories
    includeDocuments := request.included.documents
    includeSummaries := request.included.summaries
    includeRelated := request.included.relatedMemories
    aggregate := request.aggregate }

/-- Returns the error unless the condition holds. -/
def ensure {ε : Type} (condition : Prop) [Decidable condition] (error : ε) : Except ε Unit :=
  if condition then .ok () else .error error

/-- The query of a request that is accepted. -/
def searchQuery [LinearOrder σ] [Zero σ] [One σ] (engine : HybridEngine σ φ) (request : SearchRequest σ) :
    Except SearchError (SearchQuery σ φ) := do
  ensure (Text.trim request.q.toList ≠ []) (.api (.validation "q must not be empty"))
  ensure (1 ≤ request.limit ∧ request.limit ≤ 100) (.api (.validation "limit must be between 1 and 100"))
  ensure (0 ≤ request.threshold ∧ request.threshold ≤ 1)
    (.api (.validation "threshold must be a finite number between 0 and 1"))
  ensure (request.rerank = false) .rerankingUnavailable
  (validateContainerTag request.containerTag).mapError .api
  let filters ← (request.filters.mapM engine.parseFilter).mapError .api
  .ok (request.query filters)

/-- The results of a V4 search request. -/
def search [LinearOrder σ] [Zero σ] [One σ] [Add σ] [Mul σ] (env : Env) (now : Time) (engine : HybridEngine σ φ)
    (organization : String) (request : SearchRequest σ) (ranked hydrated : Database) :
    Except SearchError (List (SearchResult σ)) := do
  let query ← searchQuery engine request
  (engine.search env now organization query ranked hydrated).mapError .api

end Pipeline

-- ---------------------------------------------------------------------------
-- Selected candidates
-- ---------------------------------------------------------------------------

section Selected

variable {σ φ : Type}

namespace RankedCandidate

@[simp] theorem withScore_id (candidate : RankedCandidate σ) (score : σ) : (candidate.withScore score).id = candidate.id := by
  cases candidate <;> rfl

theorem id_memory {k k' : MemoryCandidate σ} : (memory k).id = (memory k').id ↔ k.id = k'.id := String.append_right_inj "m:"

end RankedCandidate

/-- Keys of memories and of chunks differ. -/
theorem memory_key_ne_chunk_key (a b : String) : "m:" ++ a ≠ "c:" ++ b := by
  intro h
  have hfirst := congrArg (fun s : String => s.toList.head?) h
  simp at hfirst

/-- Fused candidates come from a ranking, and no two have one key. -/
structure FusedFrom (evidence : List (RankedCandidate σ × Nat)) (fused : List (RankedCandidate σ × σ)) : Prop where
  ranked : ∀ entry ∈ fused, ∃ e ∈ evidence, e.1 = entry.1
  nodup : (fused.map fun entry => entry.1.id).Nodup

theorem FusedFrom.addEvidence [Add σ] {reciprocalRank : Nat → σ} {evidence : List (RankedCandidate σ × Nat)}
    {fused : List (RankedCandidate σ × σ)} {e : RankedCandidate σ × Nat} (h : FusedFrom evidence fused)
    (he : e ∈ evidence) : FusedFrom evidence (addEvidence reciprocalRank fused e) := by
  unfold Server.addEvidence
  split
  · constructor
    case ranked =>
      intro entry hentry
      obtain ⟨entry', hentry', rfl⟩ := List.mem_map.mp hentry
      obtain ⟨e', he', hsame⟩ := h.ranked entry' hentry'
      refine ⟨e', he', hsame.trans ?_⟩
      split <;> rfl
    case nodup =>
      rw [List.map_map]
      convert h.nodup using 2
      funext entry
      dsimp only [Function.comp_apply]
      split <;> rfl
  · rename_i hnew
    constructor
    case ranked =>
      intro entry hentry
      rcases List.mem_append.mp hentry with hold | hnew
      · exact h.ranked entry hold
      · exact ⟨e, he, congrArg Prod.fst (List.mem_singleton.mp hnew).symm⟩
    case nodup =>
      rw [List.map_append]
      apply List.nodup_append.mpr ⟨h.nodup, List.nodup_singleton _, ?_⟩
      rintro _ hid _ hnewId rfl
      obtain ⟨entry, hentry, hid⟩ := List.mem_map.mp hid
      refine hnew (List.any_eq_true.mpr ⟨entry, hentry, decide_eq_true ?_⟩)
      exact hid.trans (List.mem_singleton.mp hnewId)

theorem fused_fusedFrom [Add σ] {reciprocalRank : Nat → σ} {evidence rest : List (RankedCandidate σ × Nat)}
    {fused : List (RankedCandidate σ × σ)} (h : FusedFrom evidence fused) (hrest : ∀ e ∈ rest, e ∈ evidence) :
    FusedFrom evidence (rest.foldl (addEvidence reciprocalRank) fused) := by
  induction rest generalizing fused with
  | nil => exact h
  | cons e rest ih =>
    apply ih (h.addEvidence (hrest e List.mem_cons_self))
    exact fun e' he' => hrest e' (List.mem_cons_of_mem _ he')

theorem fuseCandidates_ranked [Add σ] (reciprocalRank : Nat → σ) (evidence : Evidence σ) :
    (∀ k ∈ fuseCandidates reciprocalRank evidence, ∃ e ∈ evidence.ranked, ∃ score, k = e.1.withScore score) ∧
      ((fuseCandidates reciprocalRank evidence).map RankedCandidate.id).Nodup := by
  have hfused : FusedFrom evidence.ranked (evidence.ranked.foldl (addEvidence reciprocalRank) []) :=
    fused_fusedFrom ⟨nofun, List.nodup_nil⟩ fun _ he => he
  constructor
  · intro k hk
    obtain ⟨entry, hentry, rfl⟩ := List.mem_map.mp hk
    obtain ⟨e, he, hsame⟩ := hfused.ranked entry hentry
    exact ⟨e, he, entry.2, by rw [hsame]⟩
  · rw [fuseCandidates, List.map_map]
    convert hfused.nodup using 2
    funext entry
    exact RankedCandidate.withScore_id entry.1 entry.2

/-- Every candidate of a ranking is fused. -/
theorem fuseCandidates_complete [Add σ] (reciprocalRank : Nat → σ) {evidence : Evidence σ}
    {e : RankedCandidate σ × Nat} (he : e ∈ evidence.ranked) :
    e.1.id ∈ (fuseCandidates reciprocalRank evidence).map RankedCandidate.id := by
  have hadds (fused : List (RankedCandidate σ × σ)) (e' : RankedCandidate σ × Nat) (id : String)
      (h : id = e'.1.id ∨ id ∈ fused.map fun entry => entry.1.id) :
      id ∈ (addEvidence reciprocalRank fused e').map fun entry => entry.1.id := by
    unfold addEvidence
    split
    · rename_i hpresent
      obtain ⟨entry, hentry, hid⟩ : ∃ entry ∈ fused, entry.1.id = id := by
        rcases h with rfl | hold
        · obtain ⟨entry, hentry, hid⟩ := List.any_eq_true.mp hpresent
          exact ⟨entry, hentry, of_decide_eq_true hid⟩
        · exact List.mem_map.mp hold
      refine List.mem_map.mpr ⟨_, List.mem_map_of_mem hentry, ?_⟩
      split
      · exact hid
      · exact hid
    · rw [List.map_append, List.mem_append]
      rcases h with rfl | hold
      · exact .inr (List.mem_singleton.mpr rfl)
      · exact .inl hold
  have hfold (rest : List (RankedCandidate σ × Nat)) (fused : List (RankedCandidate σ × σ))
      (h : e ∈ rest ∨ e.1.id ∈ fused.map fun entry => entry.1.id) :
      e.1.id ∈ (rest.foldl (addEvidence reciprocalRank) fused).map fun entry => entry.1.id := by
    induction rest generalizing fused with
    | nil =>
      rcases h with hnil | hfused
      · cases hnil
      · exact hfused
    | cons e' rest ih =>
      apply ih
      rcases h with hmem | hfused
      · rcases List.mem_cons.mp hmem with rfl | hrest
        · exact .inr (hadds fused e e.1.id (.inl rfl))
        · exact .inl hrest
      · exact .inr (hadds fused e' e.1.id (.inr hfused))
  obtain ⟨entry, hentry, hid⟩ := List.mem_map.mp (hfold evidence.ranked [] (.inl he))
  refine List.mem_map.mpr ⟨_, List.mem_map_of_mem hentry, ?_⟩
  exact (RankedCandidate.withScore_id entry.1 entry.2).trans hid

theorem selectDiverse_sublist {aggregate : Bool} {limit : Nat} {documents : List String}
    {candidates : List (RankedCandidate σ)} : (selectDiverse aggregate limit documents candidates).Sublist candidates := by
  induction candidates generalizing limit documents with
  | nil => cases limit <;> exact List.Sublist.slnil
  | cons candidate rest ih =>
    cases limit with
    | zero => exact List.nil_sublist _
    | succ limit =>
      rw [selectDiverse]
      split
      · exact ih.cons _
      · exact ih.cons_cons _

/-- A candidate without document is selected if there is room for all candidates. -/
theorem selectDiverse_complete {aggregate : Bool} {limit : Nat} {documents : List String}
    {candidates : List (RankedCandidate σ)} {k : RankedCandidate σ} (hlimit : candidates.length ≤ limit)
    (hk : k ∈ candidates) (hdocument : k.documentId = none) : k ∈ selectDiverse aggregate limit documents candidates := by
  induction candidates generalizing limit documents with
  | nil => cases hk
  | cons candidate rest ih =>
    cases limit with
    | zero => cases hlimit
    | succ limit =>
      have hrest : rest.length ≤ limit := Nat.le_of_succ_le_succ hlimit
      rw [selectDiverse]
      rcases List.mem_cons.mp hk with rfl | hk
      · rw [if_neg]
        · exact List.mem_cons_self
        · rw [hdocument]
          rintro ⟨_, _, hnone, _⟩
          cases hnone
      · split
        · exact ih (Nat.le_succ_of_le hrest) hk
        · exact List.mem_cons_of_mem _ (ih hrest hk)

/-- Every selected candidate comes from a ranking, and no two have one key. -/
theorem selectCandidates_ranked [LinearOrder σ] [Zero σ] [Add σ] (engine : HybridEngine σ φ) (query : SearchQuery σ φ)
    (evidence : Evidence σ) :
    (∀ k ∈ selectCandidates engine query evidence, ∃ e ∈ evidence.ranked, ∃ score, k = e.1.withScore score) ∧
      ((selectCandidates engine query evidence).map RankedCandidate.id).Nodup := by
  have hsublist : (selectCandidates engine query evidence).Sublist _ := selectDiverse_sublist
  have hperm := List.perm_insertionSort RankedCandidate.before (fuseCandidates engine.reciprocalRank evidence)
  obtain ⟨hranked, hnodup⟩ := fuseCandidates_ranked engine.reciprocalRank evidence
  constructor
  · intro k hk
    exact hranked k (hperm.mem_iff.mp (hsublist.mem hk))
  · apply (hsublist.map _).nodup
    exact (hperm.map _).nodup_iff.mpr hnodup

-- ---------------------------------------------------------------------------
-- Results in order
-- ---------------------------------------------------------------------------

@[simp] theorem SearchResult.reduceOptionalFields_id (result : SearchResult σ) : result.reduceOptionalFields.id = result.id := by
  cases result <;> rfl

/-- The results are hits under the keys of selected candidates, in their order. -/
theorem takeResults_selection {selected : List (RankedCandidate σ)} {results : List (SearchResult σ)} :
    List.SublistForall₂ (fun result candidate => result ∈ results ∧ result.id = candidate.id)
      (takeResults selected results) selected := by
  induction selected generalizing results with
  | nil => exact .nil
  | cons candidate rest ih =>
    rw [takeResults]
    split
    · exact .cons_right ih
    · rename_i result hfind
      have hkey := List.find?_some hfind
      refine .cons ⟨List.mem_of_find?_eq_some hfind, of_decide_eq_true hkey⟩ ?_
      exact Selection.imp (fun _ _ h => ⟨List.mem_of_mem_filter h.1, h.2⟩) ih

/-- The budget drops results and reduces others. -/
theorem fitSearchContext_selection {serializedLen : SearchResult σ → Option Nat} {remaining : Nat}
    {results : List (SearchResult σ)} :
    List.SublistForall₂ (fun result whole => result = whole ∨ result = whole.reduceOptionalFields)
      (fitSearchContext serializedLen remaining results) results := by
  induction results generalizing remaining with
  | nil => exact .nil
  | cons result rest ih =>
    unfold fitSearchContext
    by_cases hlong : contextBytes serializedLen result > remaining
    · simp only [if_pos hlong]
      split
      · exact .cons_right ih
      · exact .cons (.inr rfl) ih
    · simp only [if_neg hlong]
      split
      · exact .cons_right ih
      · exact .cons (.inl rfl) ih

-- ---------------------------------------------------------------------------
-- What the reads return
-- ---------------------------------------------------------------------------

theorem semanticRanking_ok {α : Type} {mode : Bool} {vector : Option (List F32)}
    {rank : List F32 → Except StorageError (List α)} {candidates : List α}
    (h : semanticRanking mode vector rank = .ok candidates) :
    candidates = [] ∨ ∃ v, mode = true ∧ vector = some v ∧ rank v = .ok candidates := by
  unfold semanticRanking at h
  split at h
  · rename_i v
    exact .inr ⟨v, rfl, rfl, mapError_eq_ok h⟩
  · cases h
    exact .inl rfl

theorem retrieve_ok [LinearOrder σ] {env : Env} {now : Time} {engine : HybridEngine σ φ} {organization : String}
    {query : SearchQuery σ φ} {vector : Option (List F32)} {db : Database} {evidence : Evidence σ}
    (h : retrieve env now engine organization query vector db = .ok evidence) :
    semanticRanking query.memoryMode vector (fun vector =>
      searchMemoryCandidates env now engine.vectorDot organization vector bgeModelId query.containerTag
        query.candidateLimit query.threshold query.visibility db) = .ok evidence.semanticMemories ∧
    semanticRanking query.documentMode vector (fun vector =>
      searchChunkCandidates env engine.vectorDot engine.matchesMetadataFilter organization vector bgeModelId
        query.candidateLimit query.threshold query.options db) = .ok evidence.semanticChunks ∧
    evidence.lexicalMemories = (if query.memoryMode && query.lexicalMode vector then
      searchMemoryLexicalCandidates env now engine.memoryBm25 organization query.text query.containerTag
        query.candidateLimit query.visibility db else []) ∧
    evidence.lexicalChunks = (if query.documentMode && query.lexicalMode vector then
      searchChunkLexicalCandidates engine.bm25 engine.matchesMetadataFilter organization query.text
        query.candidateLimit query.options db else []) := by
  unfold retrieve at h
  obtain ⟨semanticMemories, hmemories, h⟩ := Loop.bind_ok.mp h
  obtain ⟨semanticChunks, hchunks, h⟩ := Loop.bind_ok.mp h
  cases h
  exact ⟨hmemories, hchunks, rfl, rfl⟩

theorem mem_ranked {evidence : Evidence σ} {e : RankedCandidate σ × Nat} (h : e ∈ evidence.ranked) :
    (∃ k, e.1 = .memory k ∧ (k ∈ evidence.semanticMemories ∨ k ∈ evidence.lexicalMemories)) ∨
      ∃ k, e.1 = .chunk k ∧ (k ∈ evidence.semanticChunks ∨ k ∈ evidence.lexicalChunks) := by
  simp only [Evidence.ranked, List.mem_append, List.mem_map] at h
  rcases h with ((⟨row, hrow, rfl⟩ | ⟨k, hk, rfl⟩) | ⟨row, hrow, rfl⟩) | ⟨k, hk, rfl⟩
  · exact .inl ⟨row.1, rfl, .inl (List.fst_mem_of_mem_zipIdx hrow)⟩
  · exact .inl ⟨k, rfl, .inr hk⟩
  · exact .inr ⟨row.1, rfl, .inl (List.fst_mem_of_mem_zipIdx hrow)⟩
  · exact .inr ⟨k, rfl, .inr hk⟩

theorem ranked_memory {evidence : Evidence σ} {k : MemoryCandidate σ}
    (h : k ∈ evidence.semanticMemories ∨ k ∈ evidence.lexicalMemories) : ∃ e ∈ evidence.ranked, e.1 = .memory k := by
  simp only [Evidence.ranked, List.mem_append]
  rcases h with hsemantic | hlexical
  · obtain ⟨rank, hrank, hget⟩ := List.getElem_of_mem hsemantic
    have hplace := List.mk_mem_zipIdx_iff_getElem?.mpr (List.getElem?_eq_some_iff.mpr ⟨hrank, hget⟩)
    exact ⟨_, .inl (.inl (.inl (List.mem_map_of_mem hplace))), rfl⟩
  · exact ⟨_, .inl (.inl (.inr (List.mem_map_of_mem hlexical))), rfl⟩

theorem search_ok [LinearOrder σ] [Zero σ] [One σ] [Add σ] [Mul σ] {env : Env} {now : Time} {engine : HybridEngine σ φ}
    {organization : String} {query : SearchQuery σ φ} {ranked hydrated : Database} {results : List (SearchResult σ)}
    (h : engine.search env now organization query ranked hydrated = .ok results) :
    ∃ selected, rankHybrid env now engine organization query ranked = .ok selected ∧
      results = fitSearchContext engine.serializedLen searchContextBudgetBytes
        (takeResults selected (resultsById env engine query selected hydrated)) := by
  unfold HybridEngine.search at h
  obtain ⟨selected, hselected, h⟩ := Loop.bind_ok.mp h
  cases h
  exact ⟨selected, hselected, rfl⟩

theorem rankHybrid_ok [LinearOrder σ] [Zero σ] [Add σ] {env : Env} {now : Time} {engine : HybridEngine σ φ}
    {organization : String} {query : SearchQuery σ φ} {db : Database} {selected : List (RankedCandidate σ)}
    (h : rankHybrid env now engine organization query db = .ok selected) :
    ∃ vector evidence, engine.embedQuery query.text = .ok vector ∧
      retrieve env now engine organization query vector db = .ok evidence ∧
      selected = selectCandidates engine query evidence := by
  unfold rankHybrid at h
  obtain ⟨vector, hvector, h⟩ := Loop.bind_ok.mp h
  obtain ⟨evidence, hevidence, h⟩ := Loop.bind_ok.mp h
  cases h
  exact ⟨vector, evidence, hvector, hevidence, rfl⟩

theorem mem_memorySelection {selected : List (RankedCandidate σ)} {k : MemoryCandidate σ} :
    k ∈ memorySelection selected ↔ .memory k ∈ selected := by
  simp only [memorySelection, List.mem_filterMap]
  constructor
  · rintro ⟨candidate, hcandidate, h⟩
    cases candidate with
    | memory k' =>
      cases h
      exact hcandidate
    | chunk => cases h
  · exact fun hk => ⟨_, hk, rfl⟩

theorem mem_chunkSelection {selected : List (RankedCandidate σ)} {k : ChunkCandidate σ} :
    k ∈ chunkSelection selected ↔ .chunk k ∈ selected := by
  simp only [chunkSelection, List.mem_filterMap]
  constructor
  · rintro ⟨candidate, hcandidate, h⟩
    cases candidate with
    | memory => cases h
    | chunk k' =>
      cases h
      exact hcandidate
  · exact fun hk => ⟨_, hk, rfl⟩

/-- The results before the budget: rows that are stored under the identifiers of selected candidates. -/
theorem mem_resultsById [LinearOrder σ] [Zero σ] [One σ] [Mul σ] {env : Env} {engine : HybridEngine σ φ}
    {query : SearchQuery σ φ} {selected : List (RankedCandidate σ)} {db : Database} {result : SearchResult σ}
    (h : result ∈ resultsById env engine query selected db) :
    (∃ r, result = .memory r ∧ ∃ k, .memory k ∈ selected ∧ ∃ m ∈ db.memories, m.id = k.id ∧ r.id = m.id ∧
      r.memory = m.content ∧ r.metadata = some m.metadata) ∨
    ∃ r, result = .chunk r ∧ ∃ k, .chunk k ∈ selected ∧ ∃ c d, chunkRow db k.chunkId = some (c, d) ∧
      r.id = c.stableId ∧ r.chunk = c.content ∧ r.metadata = some d.metadata := by
  simp only [resultsById, List.mem_reverse, List.mem_append, List.mem_map] at h
  rcases h with ⟨hit, hhit, rfl⟩ | ⟨hit, hhit, rfl⟩
  · have hrecord := List.mem_map_of_mem (f := MemorySearchHit.record) hhit
    rw [hydrateMemories_records] at hrecord
    obtain ⟨k, hk, hfind⟩ := List.mem_filterMap.mp hrecord
    obtain ⟨m, hm, hread⟩ := Option.map_eq_some_iff.mp hfind
    obtain ⟨hmem, hid⟩ := Table.find_eq_some.mp hm
    refine .inl ⟨_, rfl, k, mem_memorySelection.mp hk, m, hmem, hid, ?_, ?_, ?_⟩
    · exact congrArg MemoryRecord.id hread.symm
    · exact congrArg MemoryRecord.memory hread.symm
    · exact congrArg (some ∘ MemoryRecord.metadata) hread.symm
  · obtain ⟨chunkId, c, d, hchunk, hrow, rfl⟩ := mem_hydrateChunks.mp hhit
    obtain ⟨k, hk, rfl⟩ := List.mem_map.mp hchunk
    exact .inr ⟨_, rfl, k, mem_chunkSelection.mp hk, c, d, hrow, rfl, rfl, rfl⟩

end Selected

-- ---------------------------------------------------------------------------
-- Forgotten memories
-- ---------------------------------------------------------------------------

section Forgotten

variable {σ φ : Type} [LinearOrder σ] {env : Env} {earlier now later : Time} {db db' : Database}
  {vectorDot : List (BitVec 8) → List (BitVec 8) → σ} {orgId modelId containerTag memoryId forgetOrgId forgetTag : String}
  {vector : List F32} {limit : Nat} {threshold : σ} {before : List (MemoryCandidate σ)} {id content reason : Option String}

/-- The ranking of a search never finds a memory that it found right before it was forgotten, whether or not the
    search includes forgotten memories: that opens one of the four switches that forgetting closes. -/
theorem forgotten_memory_not_ranked (query : SearchQuery σ φ)
    (hbefore : searchMemoryCandidates env earlier vectorDot orgId vector modelId containerTag limit threshold
      defaultVisibility db = .ok before)
    (hfound : memoryId ∈ before.map (·.id)) (hlimit : db.memories.rows.length ≤ limit)
    (hforget : forgetMemoryFor env now forgetOrgId id content forgetTag reason db = .ok (memoryId, db')) :
    ∃ after, searchMemoryCandidates env later vectorDot orgId vector modelId containerTag limit threshold
      query.visibility db' = .ok after ∧ memoryId ∉ after.map (·.id) := by
  have hvector : validateVector env vector vector.length = .ok () := by
    unfold searchMemoryCandidates at hbefore
    split at hbefore
    · cases hbefore
    · assumption
  cases hafter : searchMemoryCandidates env later vectorDot orgId vector modelId containerTag limit threshold
      query.visibility db' with
  | error e =>
    unfold searchMemoryCandidates at hafter
    rw [hvector] at hafter
    cases hafter
  | ok after =>
    refine ⟨after, rfl, ?_⟩
    intro hagain
    obtain ⟨hinactive, _⟩ := (forgotten_found_iff hbefore hfound hlimit hforget hafter).mp hagain
    cases hinactive

/-- A store with one memory. -/
def remembered : Option Database :=
  memoriesAfter [(0, .reconcile noteBatch none none [proposalOf "a" "Tea." [] none])]

/-- A search that includes forgotten memories. -/
def forgottenQuery : SearchQuery Int Unit :=
  { text := "tea"
    mode := .memories
    limit := 10
    threshold := 0
    options := { containerTags := ["tag"], documentId := none, filepath := none, filters := none }
    includeForgotten := true
    includeDocuments := false
    includeSummaries := false
    includeRelated := false
    aggregate := false }

/-- The ranking of the memories of a store, all of which score alike. -/
def rankedMemories (visibility : MemoryVisibility) (db : Database) : Except StorageError (List (MemoryCandidate Int)) :=
  searchMemoryCandidates unaryEnv 0 (fun _ _ => 1) "org" [0x3f800000] "model" "tag" 10 0 visibility db

theorem forgotten_memory_not_ranked_tea : ∃ db memoryId db' before after, remembered = some db ∧
    rankedMemories defaultVisibility db = .ok before ∧ memoryId ∈ before.map (·.id) ∧
    forgetMemoryFor unaryEnv 0 "org" (some memoryId) none "tag" none db = .ok (memoryId, db') ∧
    rankedMemories forgottenQuery.visibility db' = .ok after ∧ memoryId ∉ after.map (·.id) := by
  have hrun : ∃ db ∈ remembered, ∃ before ∈ (rankedMemories defaultVisibility db).toOption,
      ∃ k ∈ before, db.memories.rows.length ≤ 10 ∧
        ∃ r ∈ (forgetMemoryFor unaryEnv 0 "org" (some k.id) none "tag" none db).toOption, r.1 = k.id := by
    decide +kernel
  obtain ⟨db, hdb, before, hbefore, k, hk, hlimit, ⟨_, db'⟩, hforget, rfl⟩ := hrun
  have hbefore := Loop.ok_of_mem_toOption hbefore
  have hforget := Loop.ok_of_mem_toOption hforget
  have hfound : k.id ∈ before.map (·.id) := List.mem_map_of_mem hk
  obtain ⟨after, hafter, hhidden⟩ := forgotten_memory_not_ranked forgottenQuery hbefore hfound hlimit hforget
  exact ⟨db, k.id, db', before, after, hdb, hbefore, hfound, hforget, hafter, hhidden⟩

/-- After a reachable store forgets a memory that the search finds, the search that includes forgotten memories finds
    none at all. -/
theorem forgotten_memory_missed : ∃ db memoryId db' before, (memoryMachine unaryEnv).Reachable db ∧
    rankedMemories defaultVisibility db = .ok before ∧ memoryId ∈ before.map (·.id) ∧ db.memories.rows.length ≤ 10 ∧
    forgetMemoryFor unaryEnv 0 "org" (some memoryId) none "tag" none db = .ok (memoryId, db') ∧
    rankedMemories forgottenQuery.visibility db' = .ok [] := by
  have hrun : ∃ db ∈ remembered, ∃ before ∈ (rankedMemories defaultVisibility db).toOption,
      ∃ k ∈ before, db.memories.rows.length ≤ 10 ∧
        ∃ r ∈ (forgetMemoryFor unaryEnv 0 "org" (some k.id) none "tag" none db).toOption, r.1 = k.id ∧
          ∃ after ∈ (rankedMemories forgottenQuery.visibility r.2).toOption, after = [] := by
    decide +kernel
  obtain ⟨db, hdb, before, hbefore, k, hk, hlimit, ⟨_, db'⟩, hforget, rfl, _, hnone, rfl⟩ := hrun
  exact ⟨db, k.id, db', before, memoriesAfter_reachable hdb, Loop.ok_of_mem_toOption hbefore, List.mem_map_of_mem hk,
    hlimit, Loop.ok_of_mem_toOption hforget, Loop.ok_of_mem_toOption hnone⟩

end Forgotten

end Server
