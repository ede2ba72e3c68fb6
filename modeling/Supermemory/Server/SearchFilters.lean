-- SUMMARY: The filters of search requests, and when all results of a V4 search satisfy them.
import Supermemory.Server.SearchTenancy
import Supermemory.Storage.MetadataFilter

/-!
# Search filters

A request carries a filter as JSON, or as a text of it. The chunk rankings evaluate the
filter on the metadata of a document. The memory rankings do not look at it, so a memory is
returned whatever its metadata are.
-/

namespace Server

open Storage

-- ---------------------------------------------------------------------------
-- Parsing
-- ---------------------------------------------------------------------------

section Parsing

variable {ν : Type}

def booleanField : Option Value → Except ApiError Bool
  | none => .ok false
  | some (.bool value) => .ok value
  | some (.string "true") => .ok true
  | some (.string "false") => .ok false
  | some _ => .error (.validation "filter boolean fields must be true or false")

def filterKind : String → Except ApiError FilterKind
  | "metadata" => .ok .metadata
  | "numeric" => .ok .numeric
  | "array_contains" => .ok .arrayContains
  | "string_contains" => .ok .stringContains
  | _ => .error (.validation "invalid filterType")

def numericOperator : String → Except ApiError NumericOperator
  | ">" => .ok .greater
  | "<" => .ok .less
  | ">=" => .ok .greaterOrEqual
  | "<=" => .ok .lessOrEqual
  | "=" => .ok .equal
  | _ => .error (.validation "invalid numericOperator")

/-- A string field of a filter condition, or the error for its absence. -/
def filterText (object : Object) (key message : String) : Except ApiError String :=
  match metadataString object key with
  | none => .error (.validation message)
  | some text => .ok text

def parseCondition (numbers : Numbers ν) (object : Object) : Except ApiError FilterCondition := do
  let key ← filterText object "key" "filter key must be a string"
  let value ← filterText object "value" "filter value must be a string"
  let kind ← filterKind ((metadataString object "filterType").getD "metadata")
  ensure (kind = .numeric → Text.trim value.toList ≠ [] ∧ (numbers.parse value).isSome = true)
    (.validation "numeric filter value must be a valid number")
  let numericOperator ← numericOperator ((metadataString object "numericOperator").getD "=")
  let negate ← booleanField (object.get "negate")
  let ignoreCase ← booleanField (object.get "ignoreCase")
  .ok { key, value, kind, numericOperator, negate, ignoreCase }

/-- Parses values one after the other, counting their conditions. -/
def parseEach (parse : Value → Nat → Except ApiError (FilterExpression × Nat)) :
    List Value → Nat → Except ApiError (List FilterExpression × Nat)
  | [], conditions => .ok ([], conditions)
  | value :: rest, conditions => do
    let (filter, conditions) ← parse value conditions
    let (filters, conditions) ← parseEach parse rest conditions
    .ok (filter :: filters, conditions)

/-- The error for more than 200 conditions. -/
def tooManyConditions : ApiError := .validation "too many filter conditions; use at most 200 conditions"

/-- Parses a filter with at most so many levels, counting its conditions. -/
def parseFilterAt (numbers : Numbers ν) : Nat → Value → Nat → Except ApiError (FilterExpression × Nat)
  | 0, _, _ => .error (.validation "filter structure is too complex; use at most 8 nesting levels")
  | levels + 1, .object object, conditions =>
    match (Object.get object "AND").or (Object.get object "OR") with
    | some (.array values) =>
      if 200 < values.length ∨ 200 < conditions + values.length then .error tooManyConditions
      else do
        let (nested, conditions) ← parseEach (parseFilterAt numbers levels) values (conditions + values.length)
        .ok (if (Object.get object "AND").isSome then .and nested else .or nested, conditions)
    | some _ => .error (.validation "AND and OR filters must be arrays")
    | none =>
      if 200 < conditions + 1 then .error tooManyConditions
      else do
        let condition ← parseCondition numbers object
        .ok (.condition condition, conditions + 1)
  | _ + 1, _, _ => .error (.validation "invalid filter condition structure")

/-- The filter of a request. `fromStr` is the JSON parser. -/
def parseFilter (numbers : Numbers ν) (fromStr : String → Option Value) (value : Value) :
    Except ApiError FilterExpression := do
  let parsed ← match value with
    | .string text =>
      match fromStr text with
      | none => .error (.validation "filters must be valid JSON")
      | some parsed => .ok parsed
    | value => .ok value
  let (filter, _) ← parseFilterAt numbers 9 parsed 0
  .ok filter

end Parsing

-- ---------------------------------------------------------------------------
-- Retrieved memories
-- ---------------------------------------------------------------------------

variable {σ ν : Type} {env : Env} {now : Time} {organization : String} {db : Database} {numbers : Numbers ν}
  {fromStr : String → Option Value}

/-- The search with its own filters. -/
def HybridEngine.filtered (env : Env) (numbers : Numbers ν) (fromStr : String → Option Value)
    (engine : HybridEngine σ FilterExpression) : HybridEngine σ FilterExpression :=
  { engine with
    matchesMetadataFilter := matchesFilter env numbers
    parseFilter := parseFilter numbers fromStr }

/-- The result belongs to a memory, or to a chunk of a document, whose stored metadata satisfy the filter. -/
def SatisfiesFilter (env : Env) (numbers : Numbers ν) (filter : FilterExpression) (db : Database) :
    SearchResult σ → Prop
  | .memory result => ∃ m ∈ db.memories, m.id = result.id ∧ matchesFilter env numbers m.metadata filter = true
  | .chunk result => ∃ c ∈ db.chunks, ∃ d ∈ db.documents, c.stableId = result.id ∧ d.id = c.documentId ∧
      matchesFilter env numbers d.metadata filter = true

/-- A ranking of the search that runs has a score for the memory. -/
def Retrieves [LinearOrder σ] {φ : Type} (env : Env) (now : Time) (engine : HybridEngine σ φ) (organization : String)
    (query : SearchQuery σ φ) (db : Database) (m : Memory) : Prop :=
  query.memoryMode = true ∧ m ∈ shownMemories env now organization query.containerTag query.visibility db ∧
    ∃ vector, engine.embedQuery query.text = .ok vector ∧
      ((∃ v, vector = some v ∧ (semanticScore engine.vectorDot v bgeModelId query.threshold db m).isSome = true) ∨
        query.lexicalMode vector = true ∧ (engine.memoryBm25 db.memories.rows (ftsPhrase query.text) m).isSome = true)

section Retrieval

variable [LinearOrder σ] {φ : Type} {engine : HybridEngine σ φ} {query : SearchQuery σ φ}
  {vector : Option (List F32)} {evidence : Evidence σ}

theorem retrieve_retrieves (hvector : engine.embedQuery query.text = .ok vector)
    (h : retrieve env now engine organization query vector db = .ok evidence) {k : MemoryCandidate σ}
    (hk : k ∈ evidence.semanticMemories ∨ k ∈ evidence.lexicalMemories) :
    ∃ m, Retrieves env now engine organization query db m ∧ m.id = k.id := by
  obtain ⟨hmemories, _, hlexical, _⟩ := retrieve_ok h
  rcases hk with hk | hk
  · rcases semanticRanking_ok hmemories with hnone | ⟨v, hmode, hv, hrank⟩
    · rw [hnone] at hk
      cases hk
    · obtain ⟨m, hm, hid, hscore⟩ := shown_of_scored ((searchMemoryCandidates_ok hrank).1 k hk)
      exact ⟨m, ⟨hmode, hm, vector, hvector, .inl ⟨v, hv, hscore⟩⟩, hid⟩
  · rw [hlexical] at hk
    split at hk
    · rename_i hmodes
      obtain ⟨hmode, hlexicalMode⟩ := Bool.and_eq_true_iff.mp hmodes
      obtain ⟨m, hm, hid, hscore⟩ := shown_of_scored (searchMemoryLexicalCandidates_ranked.1 k hk)
      exact ⟨m, ⟨hmode, hm, vector, hvector, .inr ⟨hlexicalMode, hscore⟩⟩, hid⟩
    · cases hk

theorem retrieves_retrieve (hvector : engine.embedQuery query.text = .ok vector)
    (h : retrieve env now engine organization query vector db = .ok evidence) {m : Memory}
    (hm : Retrieves env now engine organization query db m) (hlimit : db.memories.rows.length ≤ query.candidateLimit) :
    ∃ k, (k ∈ evidence.semanticMemories ∨ k ∈ evidence.lexicalMemories) ∧ k.id = m.id := by
  obtain ⟨hmemories, _, hlexical, _⟩ := retrieve_ok h
  obtain ⟨hmode, hshown, vector', hvector', hscored⟩ := hm
  cases hvector'.symm.trans hvector
  rcases hscored with ⟨v, rfl, hscore⟩ | ⟨hlexicalMode, hscore⟩
  · rw [hmode] at hmemories
    have hall := (searchMemoryCandidates_ok (mapError_eq_ok hmemories)).2 hlimit
    obtain ⟨k, hk, hid⟩ := List.mem_map.mp (hall m.id (scored_of_shown hshown hscore))
    exact ⟨k, .inl hk, hid⟩
  · rw [hmode, hlexicalMode, Bool.and_self, if_pos rfl] at hlexical
    have hranked : m.id ∈ evidence.lexicalMemories.map (·.id) := by
      rw [hlexical]
      exact searchMemoryLexicalCandidates_ranked.2 hlimit m.id (scored_of_shown hshown hscore)
    obtain ⟨k, hk, hid⟩ := List.mem_map.mp hranked
    exact ⟨k, .inr hk, hid⟩

theorem retrieve_allowed (h : retrieve env now engine organization query vector db = .ok evidence)
    {k : ChunkCandidate σ} (hk : k ∈ evidence.semanticChunks ∨ k ∈ evidence.lexicalChunks) :
    AllowedRow engine.matchesMetadataFilter query.options db k := by
  obtain ⟨_, hchunks, _, hlexical⟩ := retrieve_ok h
  rcases hk with hk | hk
  · rcases semanticRanking_ok hchunks with hnone | ⟨_, _, _, hrank⟩
    · rw [hnone] at hk
      cases hk
    · exact searchChunkCandidates_allowed hrank k hk
  · rw [hlexical] at hk
    split at hk
    · exact searchChunkLexicalCandidates_allowed k hk
    · cases hk

/-- With room for every stored memory and chunk, the fused candidates fit the limit. -/
theorem fuseCandidates_length [Add σ] {reciprocalRank : Nat → σ}
    (h : retrieve env now engine organization query vector db = .ok evidence) :
    (fuseCandidates reciprocalRank evidence).length ≤ db.memories.rows.length + db.chunks.rows.length := by
  obtain ⟨hranked, hnodup⟩ := fuseCandidates_ranked reciprocalRank evidence
  have hkeys : (fuseCandidates reciprocalRank evidence).map RankedCandidate.id ⊆
      db.memories.rows.map (fun m => "m:" ++ m.id) ++ db.chunks.rows.map fun c => "c:" ++ c.stableId := by
    intro id hid
    obtain ⟨k, hk, rfl⟩ := List.mem_map.mp hid
    obtain ⟨⟨candidate, rank⟩, he, score, rfl⟩ := hranked k hk
    rw [RankedCandidate.withScore_id, List.mem_append]
    have hrow := retrieve_rankedIn h _ he
    cases candidate with
    | memory k =>
      obtain ⟨m, hm, hid, _⟩ := hrow
      exact .inl (List.mem_map.mpr ⟨m, hm, congrArg ("m:" ++ ·) hid⟩)
    | chunk k =>
      obtain ⟨c, _, hc, _, _, _, _, hstable, _⟩ := hrow
      exact .inr (List.mem_map.mpr ⟨c, hc, congrArg ("c:" ++ ·) hstable.symm⟩)
  have hlength := (List.subperm_of_subset hnodup hkeys).length_le
  simpa using hlength

variable [Zero σ] [Add σ] {selected : List (RankedCandidate σ)}

theorem selected_retrieves (h : rankHybrid env now engine organization query db = .ok selected) {k : MemoryCandidate σ}
    (hk : .memory k ∈ selected) : ∃ m, Retrieves env now engine organization query db m ∧ m.id = k.id := by
  obtain ⟨vector, evidence, hvector, hretrieve, rfl⟩ := rankHybrid_ok h
  obtain ⟨⟨candidate, rank⟩, he, score, hcandidate⟩ := (selectCandidates_ranked _ _ _).1 _ hk
  rcases mem_ranked he with ⟨k', rfl, hk'⟩ | ⟨k', rfl, _⟩
  · cases hcandidate
    obtain ⟨m, hm, hid⟩ := retrieve_retrieves hvector hretrieve hk'
    exact ⟨m, hm, hid⟩
  · cases hcandidate

theorem selected_allowed (h : rankHybrid env now engine organization query db = .ok selected) {k : ChunkCandidate σ}
    (hk : .chunk k ∈ selected) : AllowedRow engine.matchesMetadataFilter query.options db k := by
  obtain ⟨vector, evidence, _, hretrieve, rfl⟩ := rankHybrid_ok h
  obtain ⟨⟨candidate, rank⟩, he, score, hcandidate⟩ := (selectCandidates_ranked _ _ _).1 _ hk
  rcases mem_ranked he with ⟨k', rfl, _⟩ | ⟨k', rfl, hk'⟩
  · cases hcandidate
  · cases hcandidate
    have hallowed := retrieve_allowed hretrieve hk'
    exact hallowed

/-- With room for every stored memory and chunk, every retrieved memory is selected. -/
theorem retrieves_selected (h : rankHybrid env now engine organization query db = .ok selected) {m : Memory}
    (hm : Retrieves env now engine organization query db m)
    (hlimit : db.memories.rows.length + db.chunks.rows.length ≤ query.limit) (hmost : query.limit ≤ 100) :
    ∃ k, .memory k ∈ selected ∧ k.id = m.id := by
  obtain ⟨vector, evidence, hvector, hretrieve, rfl⟩ := rankHybrid_ok h
  have hcandidates : db.memories.rows.length ≤ query.candidateLimit := by
    unfold SearchQuery.candidateLimit
    omega
  obtain ⟨k, hk, hid⟩ := retrieves_retrieve hvector hretrieve hm hcandidates
  obtain ⟨e, he, hek⟩ := ranked_memory hk
  obtain ⟨fused, hfused, hkey⟩ := List.mem_map.mp (fuseCandidates_complete engine.reciprocalRank he)
  obtain ⟨⟨candidate, rank⟩, _, score, rfl⟩ := (fuseCandidates_ranked _ _).1 fused hfused
  rw [hek, RankedCandidate.withScore_id] at hkey
  cases candidate with
  | chunk k' => exact absurd hkey.symm (memory_key_ne_chunk_key k.id k'.stableId)
  | memory k' =>
    refine ⟨{ k' with semanticScore := some score }, ?_, (RankedCandidate.id_memory.mp hkey).trans hid⟩
    apply selectDiverse_complete _ ((List.mem_insertionSort _).mpr hfused) rfl
    rw [List.length_insertionSort]
    exact Nat.le_trans (fuseCandidates_length hretrieve) hlimit

end Retrieval

-- ---------------------------------------------------------------------------
-- Filtered results
-- ---------------------------------------------------------------------------

instance (env : Env) (numbers : Numbers ν) (filter : FilterExpression) (db : Database) :
    DecidablePred (SatisfiesFilter (σ := σ) env numbers filter db)
  | .memory result => inferInstanceAs
      (Decidable (∃ m ∈ db.memories.rows, m.id = result.id ∧ matchesFilter env numbers m.metadata filter = true))
  | .chunk result => inferInstanceAs
      (Decidable (∃ c ∈ db.chunks.rows, ∃ d ∈ db.documents.rows, c.stableId = result.id ∧ d.id = c.documentId ∧
        matchesFilter env numbers d.metadata filter = true))

theorem SatisfiesFilter.reduced {filter : FilterExpression} {result : SearchResult σ} (h : SatisfiesFilter env numbers filter db result) :
    SatisfiesFilter env numbers filter db result.reduceOptionalFields := by
  cases result with
  | memory => exact h
  | chunk => exact h

variable [LinearOrder σ] [Zero σ] [One σ] [Add σ] [Mul σ] {engine : HybridEngine σ FilterExpression}
  {request : SearchRequest σ} {value : Value} {filter : FilterExpression} {results : List (SearchResult σ)}

/-- A request that is answered has a query with its filters. -/
theorem search_filtered {ranked hydrated : Database} (hfilters : request.filters = some value)
    (hparse : parseFilter numbers fromStr value = .ok filter)
    (h : search env now (engine.filtered env numbers fromStr) organization request ranked hydrated = .ok results) :
    request.limit ≤ 100 ∧ (engine.filtered env numbers fromStr).search env now organization
      (request.query (some filter)) ranked hydrated = .ok results := by
  unfold search at h
  obtain ⟨query, hquery, h⟩ := Loop.bind_ok.mp h
  obtain ⟨_, _, hquery⟩ := Loop.bind_ok.mp hquery
  obtain ⟨_, hlimit, hquery⟩ := Loop.bind_ok.mp hquery
  obtain ⟨_, _, hquery⟩ := Loop.bind_ok.mp hquery
  obtain ⟨_, _, hquery⟩ := Loop.bind_ok.mp hquery
  obtain ⟨_, _, hquery⟩ := Loop.bind_ok.mp hquery
  obtain ⟨filters, hmap, hquery⟩ := Loop.bind_ok.mp hquery
  cases hquery
  have hlimit : 1 ≤ request.limit ∧ request.limit ≤ 100 := by
    by_contra hnot
    rw [ensure, if_neg hnot] at hlimit
    cases hlimit
  have hparsed : request.filters.mapM (engine.filtered env numbers fromStr).parseFilter = .ok (some filter) := by
    rw [hfilters]
    exact congrArg (some <$> ·) hparse
  rw [hparsed] at hmap
  cases hmap
  exact ⟨hlimit.2, mapError_eq_ok h⟩

/-- All results of a search satisfy its filters if every memory that the search retrieves does, whatever its chunks
    are. If neither the limit nor the budget drops a candidate, they do so only then. -/
theorem filters_constrain_results (hfilters : request.filters = some value)
    (hparse : parseFilter numbers fromStr value = .ok filter)
    (hresults : search env now (engine.filtered env numbers fromStr) organization request db db = .ok results) :
    let engine := engine.filtered env numbers fromStr
    let query := request.query (some filter)
    let constrained := ∀ result ∈ results, SatisfiesFilter env numbers filter db result
    let retrieved := ∀ m, Retrieves env now engine organization query db m →
      matchesFilter env numbers m.metadata filter = true
    (retrieved → constrained) ∧
      ∀ selected, rankHybrid env now engine organization query db = .ok selected →
        results.length = selected.length → db.memories.rows.length + db.chunks.rows.length ≤ request.limit →
        constrained → retrieved := by
  obtain ⟨hmost, hsearch⟩ := search_filtered hfilters hparse hresults
  obtain ⟨selected, hselected, rfl⟩ := search_ok hsearch
  refine ⟨?_, ?_⟩
  · intro hretrieved result hresult
    obtain ⟨whole, hwhole, hreduced⟩ := Selection.exists_of_mem fitSearchContext_selection hresult
    obtain ⟨candidate, _, hread, _⟩ := Selection.exists_of_mem takeResults_selection hwhole
    have hsatisfies : SatisfiesFilter env numbers filter db whole := by
      rcases mem_resultsById hread with ⟨r, rfl, k, hk, m, hm, hid, hresultId, _⟩ |
        ⟨r, rfl, k, hk, c, d, hrow, hresultId, _⟩
      · obtain ⟨m', hm', hid'⟩ := selected_retrieves hselected hk
        obtain rfl := Table.eq_of_key (mem_shownMemories.mp hm'.2.1).1 hm (hid'.trans hid.symm)
        exact ⟨m', hm, hresultId.symm, hretrieved m' hm'⟩
      · obtain ⟨c', d', hrow', _, _, _, hallowed⟩ := selected_allowed hselected hk
        cases hrow'.symm.trans hrow
        obtain ⟨hc, _, hd, hdocument⟩ := chunkRow_eq_some.mp hrow
        exact ⟨c, hc, d, hd, hresultId.symm, hdocument, hallowed filter rfl⟩
    rcases hreduced with rfl | rfl
    · exact hsatisfies
    · exact hsatisfies.reduced
  · intro selected' hselected' hlength hlimit hconstrained m hm
    cases hselected'.symm.trans hselected
    obtain ⟨k, hk, hid⟩ := retrieves_selected hselected hm hlimit hmost
    have hanswers {read : List (SearchResult σ)} : List.SublistForall₂ (fun result candidate => result.id = candidate.id)
        (fitSearchContext (engine.filtered env numbers fromStr).serializedLen searchContextBudgetBytes
          (takeResults selected read)) selected := by
      apply Selection.trans _ fitSearchContext_selection takeResults_selection
      rintro result whole candidate (rfl | rfl) ⟨_, hkey⟩
      · exact hkey
      · exact (SearchResult.reduceOptionalFields_id whole).trans hkey
    obtain ⟨result, hresult, hkey⟩ := Selection.answered hanswers hlength hk
    cases result with
    | chunk r => exact absurd hkey.symm (memory_key_ne_chunk_key k.id r.id)
    | memory r =>
      obtain ⟨m', hm', hid', hmatches⟩ := hconstrained _ hresult
      have hsame : r.id = k.id := (String.append_right_inj "m:").mp hkey
      obtain rfl := Table.eq_of_key hm' (mem_shownMemories.mp hm.2.1).1 (hid'.trans (hsame.trans hid))
      exact hmatches

/-- A search by text for memories and chunks that scores all of them alike, where no filter is about numbers. -/
def plainEngine : HybridEngine Int FilterExpression :=
  { embedQuery := fun _ => .ok none
    vectorDot := fun _ _ => 0
    bm25 := fun _ _ _ => some 0
    matchesMetadataFilter := fun _ _ => true
    parseFilter := fun _ => .error (.validation "")
    memoryBm25 := fun _ _ _ => some 0
    columns := ⟨fun _ => none, fun _ => none, fun _ => none, fun _ => 0⟩
    reciprocalRank := fun rank => 1000 / (60 + rank)
    serializedLen := fun _ => some 100 }

def noNumbers : Numbers Unit := ⟨fun _ => none, fun _ => none, fun _ _ => false, fun _ _ => false, fun _ _ => true⟩

/-- A request for what is of the project `tea`, or for all but that. -/
def teaRequest (mode : SearchMode) (negate : Bool) : SearchRequest Int :=
  { q := "tea"
    limit := 10
    threshold := 0
    containerTag := some "tag"
    filters := some (.object [("key", .string "project"), ("value", .string "tea"), ("negate", .bool negate)])
    included := ⟨false, false, false, false, false⟩
    rerank := false
    aggregate := false
    searchMode := mode
    filepath := none }

def teaFilter (negate : Bool) : FilterExpression := .condition ⟨"project", "tea", .metadata, .equal, negate, false⟩

def teaSearch (organization : String) (mode : SearchMode) (negate : Bool) (db : Database) :
    Except SearchError (List (SearchResult Int)) :=
  search unaryEnv 0 (plainEngine.filtered unaryEnv noNumbers fun _ => none) organization (teaRequest mode negate) db db

theorem filters_constrain_results_documents : ∃ s results, indexedOnce = some s ∧
    teaSearch "" .documents true s.db = .ok results ∧ results.map SearchResult.id = ["c:xxx"] ∧
    ∀ result ∈ results, SatisfiesFilter unaryEnv noNumbers (teaFilter true) s.db result := by
  have hrun : ∃ s ∈ indexedOnce, ∃ results ∈ (teaSearch "" .documents true s.db).toOption,
      results.map SearchResult.id = ["c:xxx"] := by
    decide +kernel
  obtain ⟨s, hs, results, hresults, hids⟩ := hrun
  have hsearch := Loop.ok_of_mem_toOption hresults
  refine ⟨s, results, hs, hsearch, hids, (filters_constrain_results rfl rfl hsearch).1 ?_⟩
  rintro m ⟨hmode, _⟩
  cases hmode

/-- A memory without metadata is returned for a filter that it does not satisfy. -/
theorem filter_ignored : ∃ db results, remembered = some db ∧ (memoryMachine unaryEnv).Reachable db ∧
    (∀ value ∈ (teaRequest .memories false).filters,
      parseFilter noNumbers (fun _ => none) value = .ok (teaFilter false)) ∧
    teaSearch "org" .memories false db = .ok results ∧
    ¬ ∀ result ∈ results, SatisfiesFilter unaryEnv noNumbers (teaFilter false) db result := by
  have hrun : ∃ db ∈ remembered, ∃ results ∈ (teaSearch "org" .memories false db).toOption,
      ¬ ∀ result ∈ results, SatisfiesFilter unaryEnv noNumbers (teaFilter false) db result := by
    decide +kernel
  obtain ⟨db, hdb, results, hresults, hviolates⟩ := hrun
  refine ⟨db, results, hdb, memoriesAfter_reachable hdb, ?_, Loop.ok_of_mem_toOption hresults, hviolates⟩
  rintro _ ⟨rfl⟩
  rfl

end Server
