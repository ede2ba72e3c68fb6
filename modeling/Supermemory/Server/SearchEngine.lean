-- SUMMARY: The V3 document search, and when it returns the chunks that it ranked although the writer commits between its two reads.
import Mathlib.Algebra.Ring.Int.Defs
import Supermemory.Server.IndexingCoordinator
import Supermemory.Storage.ChunkCandidates
import Supermemory.Text

/-!
# The V3 search

`search_v3` ranks chunks with one statement and reads them with another one, groups them
by their document, and selects documents. Each statement sees what is committed when it
starts, so the writer may commit transactions between the two.
-/

namespace Server

open Storage

-- ---------------------------------------------------------------------------
-- Requests and responses
-- ---------------------------------------------------------------------------

structure V3SearchRequest (σ : Type) where
  q : String
  limit : Nat
  chunkThreshold : σ
  documentThreshold : σ
  containerTag : Option String
  containerTags : Option (List String)
  docId : Option String
  filters : Option Value
  includeFullDocs : Bool
  includeSummary : Bool
  filepath : Option String

structure V3ChunkResult (σ : Type) where
  content : String
  isRelevant : Bool
  score : σ
  position : Nat
  deriving DecidableEq

structure V3DocumentResult (σ : Type) where
  chunks : List (V3ChunkResult σ)
  documentId : String
  metadata : Option Object
  score : σ
  summary : Option String
  content : Option String
  title : Option String
  documentType : Option String
  deriving DecidableEq

structure V3SearchResponse (σ : Type) where
  results : List (V3DocumentResult σ)
  total : Nat
  deriving DecidableEq

inductive ApiError where
  | embeddingExecutor (message : String)
  | validation (message : String)
  | storage (error : StorageError)
  deriving DecidableEq

/-- What the search computes of a query, of a row and of a filter outside the store. -/
structure SearchEngine (σ φ : Type) where
  embedQuery : String → Except ApiError (Option (List F32))
  vectorDot : List (BitVec 8) → List (BitVec 8) → σ
  bm25 : List Chunk → String → Chunk → Option σ
  matchesMetadataFilter : Object → φ → Bool
  parseFilter : Value → Except ApiError φ

-- ---------------------------------------------------------------------------
-- The pipeline
-- ---------------------------------------------------------------------------

section Pipeline

variable {σ φ : Type}

def metadataString (metadata : Object) (key : String) : Option String := (metadata.get key).bind Value.asStr

def V3SearchRequest.options (request : V3SearchRequest σ) (filters : Option φ) : SearchOptions φ :=
  { containerTags := match request.containerTag with
      | none => request.containerTags.getD ["sm_project_default"]
      | some tag => [tag]
    documentId := request.docId
    filepath := request.filepath
    filters }

/-- The first statement of a search: by the vector of the query where there is one, else by its text. -/
def rankV3 [LinearOrder σ] (env : Env) (engine : SearchEngine σ φ) (organization : String)
    (request : V3SearchRequest σ) (db : Database) : Except ApiError (List (ChunkCandidate σ)) := do
  let query := String.ofList (Text.trim request.q.toList)
  let queryVector ← engine.embedQuery query
  let candidateLimit := min (request.limit * 5) 500
  let filters ← request.filters.mapM engine.parseFilter
  let options := request.options filters
  match queryVector with
  | none =>
    .ok (searchChunkLexicalCandidates engine.bm25 engine.matchesMetadataFilter organization query candidateLimit
      options db)
  | some vector =>
    (searchChunkCandidates env engine.vectorDot engine.matchesMetadataFilter organization vector bgeModelId
      candidateLimit request.chunkThreshold options db).mapError .storage

def chunkResult (hit : SearchHit σ) : V3ChunkResult σ :=
  { content := hit.chunk, isRelevant := true, score := hit.score, position := hit.position }

def documentResult (includeSummary includeFullDocs : Bool) (hit : SearchHit σ) : V3DocumentResult σ :=
  { chunks := [chunkResult hit]
    documentId := hit.documentId
    metadata := some hit.metadata
    score := hit.score
    summary := if includeSummary then metadataString hit.metadata "summary" else none
    content := if includeFullDocs then some hit.documentContent else none
    title := metadataString hit.metadata "title"
    documentType := metadataString hit.metadata "type" }

/-- Adds a hit to the result of its document, or starts one. -/
def addHit [LinearOrder σ] (includeSummary includeFullDocs : Bool) (hit : SearchHit σ) :
    List (V3DocumentResult σ) → List (V3DocumentResult σ)
  | [] => [documentResult includeSummary includeFullDocs hit]
  | existing :: rest =>
    if existing.documentId = hit.documentId then
      { existing with
        score := max existing.score hit.score
        chunks := existing.chunks ++ [chunkResult hit] } :: rest
    else
      existing :: addHit includeSummary includeFullDocs hit rest

def groupV3Results [LinearOrder σ] (hits : List (SearchHit σ)) (limit : Nat) (documentThreshold : σ)
    (includeSummary includeFullDocs : Bool) : List (V3DocumentResult σ) :=
  let results := hits.foldl (fun results hit => addHit includeSummary includeFullDocs hit results) []
  let retained := results.filter fun result => documentThreshold ≤ result.score
  (retained.insertionSort fun left right => right.score ≤ left.score).take limit

/-- Runs the V3 document-search pipeline: narrow ranking on what is committed at first, explicit hydration on
    what is committed then, document grouping, thresholding, and final selection. -/
def searchV3 [LinearOrder σ] [Zero σ] (env : Env) (engine : SearchEngine σ φ) (organization : String)
    (request : V3SearchRequest σ) (ranked hydrated : Database) : Except ApiError (V3SearchResponse σ) := do
  let candidates ← rankV3 env engine organization request ranked
  let hits := hydrateChunks candidates request.includeFullDocs hydrated
  let results := groupV3Results hits request.limit request.documentThreshold request.includeSummary
    request.includeFullDocs
  .ok { results, total := (results.map fun result => result.chunks.length).sum }

end Pipeline

-- ---------------------------------------------------------------------------
-- Grouping
-- ---------------------------------------------------------------------------

section Grouping

variable {σ φ : Type} [LinearOrder σ] {hits : List (SearchHit σ)} {results : List (V3DocumentResult σ)}

/-- Every chunk of a result is a hit in the document of the result. -/
def Groups (hits : List (SearchHit σ)) (results : List (V3DocumentResult σ)) : Prop :=
  ∀ result ∈ results, ∀ chunk ∈ result.chunks, ∃ hit ∈ hits, hit.documentId = result.documentId ∧
    chunk = chunkResult hit

theorem Groups.addHit {includeSummary includeFullDocs : Bool} {hit : SearchHit σ} (h : Groups hits results)
    (hhit : hit ∈ hits) : Groups hits (addHit includeSummary includeFullDocs hit results) := by
  induction results with
  | nil =>
    intro result hresult chunk hchunk
    obtain rfl := List.mem_singleton.mp hresult
    exact ⟨hit, hhit, rfl, List.mem_singleton.mp hchunk⟩
  | cons existing rest ih =>
    have hrest : Groups hits rest := fun result hresult => h result (List.mem_cons_of_mem _ hresult)
    have hexisting := h existing List.mem_cons_self
    unfold Server.addHit
    split
    · rename_i hsame
      intro result hresult chunk hchunk
      rcases List.mem_cons.mp hresult with rfl | hresult
      · rcases List.mem_append.mp hchunk with hold | hnew
        · exact hexisting chunk hold
        · exact ⟨hit, hhit, hsame.symm, List.mem_singleton.mp hnew⟩
      · exact hrest result hresult chunk hchunk
    · intro result hresult
      rcases List.mem_cons.mp hresult with rfl | hresult
      · exact hexisting
      · exact ih hrest result hresult

theorem groups_groupV3Results {limit : Nat} {documentThreshold : σ} {includeSummary includeFullDocs : Bool} :
    Groups hits (groupV3Results hits limit documentThreshold includeSummary includeFullDocs) := by
  have hfold {rest : List (SearchHit σ)} {results : List (V3DocumentResult σ)} (hrest : ∀ hit ∈ rest, hit ∈ hits) (h : Groups hits results) :
      Groups hits (rest.foldl (fun results hit => addHit includeSummary includeFullDocs hit results) results) := by
    induction rest generalizing results with
    | nil => exact h
    | cons hit rest ih =>
      apply ih
      · exact fun other hother => hrest other (List.mem_cons_of_mem _ hother)
      · exact h.addHit (hrest hit List.mem_cons_self)
  intro result hresult
  have hretained := (List.mem_insertionSort _).mp (List.mem_of_mem_take hresult)
  apply hfold (fun _ hhit => hhit) (fun _ hnil => absurd hnil List.not_mem_nil) result
  exact List.mem_of_mem_filter hretained

end Grouping

-- ---------------------------------------------------------------------------
-- What was ranked
-- ---------------------------------------------------------------------------

variable {σ φ : Type} [LinearOrder σ] {env : Env} {engine : SearchEngine σ φ} {organization : String}
  {request : V3SearchRequest σ} {candidates : List (ChunkCandidate σ)}

theorem mapError_eq_ok {ε ε' α : Type} {f : ε → ε'} {r : Except ε α} {a : α} (h : r.mapError f = .ok a) :
    r = .ok a := by
  cases r with
  | error e => cases h
  | ok a' =>
    cases h
    rfl

theorem rankV3_ranked {db : Database} (h : rankV3 env engine organization request db = .ok candidates) :
    ∀ k ∈ candidates, RankedRow db organization k := by
  simp only [rankV3] at h
  cases hvector : engine.embedQuery (String.ofList (Text.trim request.q.toList)) with
  | error e =>
    rw [hvector] at h
    cases h
  | ok queryVector =>
    cases hfilters : request.filters.mapM engine.parseFilter with
    | error e =>
      rw [hvector, hfilters] at h
      cases h
    | ok filters =>
      rw [hvector, hfilters] at h
      cases queryVector with
      | none =>
        cases h
        exact searchChunkLexicalCandidates_ranked
      | some vector =>
        have h : Except.mapError ApiError.storage _ = .ok candidates := h
        exact searchChunkCandidates_ranked (mapError_eq_ok h)

/-- Every chunk of the response is a stored chunk of a document of the organization, with a stable identifier
    that was ranked. -/
def ReturnsRanked (db : Database) (organization : String) (candidates : List (ChunkCandidate σ))
    (response : V3SearchResponse σ) : Prop :=
  ∀ result ∈ response.results, ∀ chunk ∈ result.chunks, ∃ hit, ShowsRanked db organization candidates hit ∧
    hit.documentId = result.documentId ∧ chunk = chunkResult hit

/-- A search returns what it ranked, where no publication between its two reads gives the row identifier of a
    candidate to another chunk. -/
theorem searchV3_returns_ranked [Zero σ] {s t : System} {response : V3SearchResponse σ} (hs : (machine env).Reachable s)
    (hranked : rankV3 env engine organization request s.db = .ok candidates)
    (hrun : ((machine env).restrict fun s event => ¬ Recycles env candidates s event).Run s t)
    (hresponse : searchV3 env engine organization request s.db t.db = .ok response) :
    ReturnsRanked t.db organization candidates response := by
  have hstill := StillRanked.run hs (rankV3_ranked hranked) hrun
  unfold searchV3 at hresponse
  rw [hranked] at hresponse
  cases hresponse
  intro result hresult chunk hchunk
  obtain ⟨hit, hhit, hdocument, hsame⟩ := groups_groupV3Results result hresult chunk hchunk
  exact ⟨hit, hstill.hydrated hhit, hdocument, hsame⟩

/-- A search by text for phrases that only the text `a fact` contains. -/
def factEngine : SearchEngine Int Unit where
  embedQuery _ := .ok none
  vectorDot _ _ := 0
  bm25 _ _ c := if c.content = "a fact" then some (-1) else none
  matchesMetadataFilter _ _ := true
  parseFilter _ := .ok ()

def factRequest : V3SearchRequest Int :=
  { q := "a fact"
    limit := 10
    chunkThreshold := 0
    documentThreshold := 0
    containerTag := some "tag"
    containerTags := none
    docId := none
    filters := none
    includeFullDocs := false
    includeSummary := false
    filepath := none }

def rankedFact : ChunkCandidate Int :=
  { chunkId := 1, stableId := "xxx", documentId := "x", ordinal := 0, semanticScore := none, lexicalRank := some 1 }

/-- Another document is indexed between the two reads. -/
def otherIndexed : List (Time × Call) :=
  [(0, .upsertDocument "" { upsertOf "another note" with customId := some "other" }), (0, .claimJob),
    (0, .completeJob ⟨"xxxxx", "xxxx", "another note", 1⟩ ["another note"])]

theorem searchV3_returns_ranked_otherIndexed : ∃ (s t : System) (response : V3SearchResponse Int),
    searchV3 unaryEnv factEngine "" factRequest s.db t.db = .ok response ∧ response.total = 1 ∧
    s.db ≠ t.db ∧ ReturnsRanked t.db "" [rankedFact] response := by
  obtain ⟨s, hs⟩ : ∃ s, indexedOnce = some s := Option.isSome_iff_exists.mp (by decide +kernel)
  have hreads : ∀ s ∈ indexedOnce, rankV3 unaryEnv factEngine "" factRequest s.db = .ok [rankedFact] ∧
      ∃ t ∈ ((machine unaryEnv).restrict fun s event => ¬ Recycles unaryEnv [rankedFact] s event).replay s
        otherIndexed, s.db ≠ t.db ∧
        ((searchV3 unaryEnv factEngine "" factRequest s.db t.db).map (·.total)) = .ok 1 := by
    decide +kernel
  obtain ⟨hranked, t, ht, hother, htotal⟩ := hreads s hs
  cases hresponse : searchV3 unaryEnv factEngine "" factRequest s.db t.db with
  | error e =>
    rw [hresponse] at htotal
    cases htotal
  | ok response =>
    rw [hresponse] at htotal
    exact ⟨s, t, response, hresponse, Except.ok.inj htotal, hother,
      searchV3_returns_ranked (afterCalls_reachable hs) hranked (.replay .refl ht) hresponse⟩

/-- A store with another organization in it. -/
def twoTenants : System := ⟨⟨⟨[⟨"acme", "acme"⟩], by simp⟩, ∅, ∅, ∅, ∅, ∅, ∅, ∅, ∅, 0⟩, [], [], []⟩

def tenantIndexed : List (Time × Call) :=
  [(0, .openStorage), (0, .upsertDocument "" (upsertOf "a fact")), (0, .claimJob),
    (0, .completeJob ⟨"xx", "x", "a fact", 1⟩ ["a fact"])]

/-- The document is deleted between the two reads, and one of the other organization is indexed. -/
def otherTenantIndexed : List (Time × Call) :=
  [(0, .upsertDocument "acme" (upsertOf "a secret")), (0, .deleteDocument "" "x"), (0, .claimJob),
    (0, .completeJob ⟨"xxxxx", "xxxx", "a secret", 1⟩ ["a secret"])]

theorem searchV3_returns_unranked : ∃ (s t : System) (response : V3SearchResponse Int),
    (machine unaryEnv).Reachable s ∧ rankV3 unaryEnv factEngine "" factRequest s.db = .ok [rankedFact] ∧
    (machine unaryEnv).Run s t ∧ searchV3 unaryEnv factEngine "" factRequest s.db t.db = .ok response ∧
    (∃ result ∈ response.results, ∃ chunk ∈ result.chunks, chunk.content = "a secret") ∧
    ¬ ReturnsRanked t.db "" [rankedFact] response := by
  have hreads : ∃ s ∈ (machine unaryEnv).replay twoTenants tenantIndexed,
      rankV3 unaryEnv factEngine "" factRequest s.db = .ok [rankedFact] ∧
      ∃ t ∈ (machine unaryEnv).replay s otherTenantIndexed,
        (∀ d ∈ t.db.documents.rows, d.orgId ≠ "") ∧
        ∃ response ∈ (searchV3 unaryEnv factEngine "" factRequest s.db t.db).toOption,
          ∃ result ∈ response.results, ∃ chunk ∈ result.chunks, chunk.content = "a secret" := by
    decide +kernel
  obtain ⟨s, hs, hranked, t, ht, hnone, response, hresponse, hsecret⟩ := hreads
  have hreachable : (machine unaryEnv).Reachable s := .replay (.start ⟨_, rfl⟩) hs
  refine ⟨s, t, response, hreachable, hranked, .replay .refl ht, ?_, hsecret, ?_⟩
  · cases hresult : searchV3 unaryEnv factEngine "" factRequest s.db t.db with
    | error e =>
      rw [hresult] at hresponse
      cases hresponse
    | ok other =>
      rw [hresult] at hresponse
      cases hresponse
      rfl
  · intro hreturns
    obtain ⟨result, hresult, chunk, hchunk, _⟩ := hsecret
    obtain ⟨hit, ⟨⟨_, d, _, hd, _, horg, _⟩, _⟩, _⟩ := hreturns result hresult chunk hchunk
    exact hnone d hd horg

end Server
