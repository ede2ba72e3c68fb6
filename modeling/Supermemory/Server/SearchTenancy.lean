-- SUMMARY: The results of a V4 search are the selected candidates, in their order and of their tenant, whatever the writer commits meanwhile.
import Supermemory.Server.HybridSearch

/-!
# Search results and tenants

The second read of a search finds chunks by row identifiers, which are used again. A row
that another chunk took in the meantime is read, but it has another stable identifier, under
which no candidate is looked up. A stable identifier never leaves its document, and a memory
never leaves its container.
-/

namespace Server

open Storage

variable {σ φ : Type} {env : Env} {db : Database} {organization containerTag : String}

-- ---------------------------------------------------------------------------
-- Ranked rows
-- ---------------------------------------------------------------------------

/-- The candidate is a memory of the container, or a chunk of a document of the organization. -/
def RankedIn (db : Database) (organization containerTag : String) : RankedCandidate σ → Prop
  | .memory k => ∃ m ∈ db.memories, m.id = k.id ∧ m.orgId = organization ∧ m.containerTag = containerTag
  | .chunk k => RankedRow db organization k

theorem RankedIn.withScore {k : RankedCandidate σ} {score : σ} (h : RankedIn db organization containerTag k) :
    RankedIn db organization containerTag (k.withScore score) := by
  cases k with
  | memory => exact h
  | chunk => exact h

theorem scored_rankedIn {now : Time} {visibility : MemoryVisibility} {score : Memory → Option σ} {k : MemoryCandidate σ}
    (h : k.id ∈ (scoredMemories score (shownMemories env now organization containerTag visibility db)).map (·.1)) :
    RankedIn db organization containerTag (.memory k) := by
  obtain ⟨m, hm, hid, _⟩ := shown_of_scored h
  obtain ⟨hmem, horg, hcontainer, _⟩ := mem_shownMemories.mp hm
  exact ⟨m, hmem, hid, horg, hcontainer⟩

section Ranking

variable [LinearOrder σ] {now : Time} {engine : HybridEngine σ φ} {query : SearchQuery σ φ}
  {vector : Option (List F32)} {evidence : Evidence σ}

theorem retrieve_rankedIn (h : retrieve env now engine organization query vector db = .ok evidence) :
    ∀ e ∈ evidence.ranked, RankedIn db organization query.containerTag e.1 := by
  obtain ⟨hmemories, hchunks, hlexicalMemories, hlexicalChunks⟩ := retrieve_ok h
  intro e he
  rcases mem_ranked he with ⟨k, hk, hsemantic | hlexical⟩ | ⟨k, hk, hsemantic | hlexical⟩
  · rw [hk]
    rcases semanticRanking_ok hmemories with hnone | ⟨_, _, _, hrank⟩
    · rw [hnone] at hsemantic
      cases hsemantic
    · exact scored_rankedIn ((searchMemoryCandidates_ok hrank).1 k hsemantic)
  · rw [hk]
    rw [hlexicalMemories] at hlexical
    split at hlexical
    · exact scored_rankedIn (searchMemoryLexicalCandidates_ranked.1 k hlexical)
    · cases hlexical
  · rw [hk]
    rcases semanticRanking_ok hchunks with hnone | ⟨_, _, _, hrank⟩
    · rw [hnone] at hsemantic
      cases hsemantic
    · exact searchChunkCandidates_ranked hrank k hsemantic
  · rw [hk]
    rw [hlexicalChunks] at hlexical
    split at hlexical
    · exact searchChunkLexicalCandidates_ranked k hlexical
    · cases hlexical

variable [Zero σ] [Add σ] {selected : List (RankedCandidate σ)}

theorem rankHybrid_rankedIn (h : rankHybrid env now engine organization query db = .ok selected) :
    (∀ k ∈ selected, RankedIn db organization query.containerTag k) ∧ (selected.map RankedCandidate.id).Nodup := by
  obtain ⟨vector, evidence, _, hretrieve, rfl⟩ := rankHybrid_ok h
  obtain ⟨hranked, hnodup⟩ := selectCandidates_ranked engine query evidence
  refine ⟨?_, hnodup⟩
  intro k hk
  obtain ⟨e, he, score, rfl⟩ := hranked k hk
  exact (retrieve_rankedIn hretrieve e he).withScore

end Ranking

-- ---------------------------------------------------------------------------
-- Results
-- ---------------------------------------------------------------------------

/-- The result shows the row of the candidate: the memory in its container, or the chunk in the document that it
    was ranked in, which is still of the organization. -/
def Shows (db : Database) (organization containerTag : String) : SearchResult σ → RankedCandidate σ → Prop
  | .memory result, .memory k => result.id = k.id ∧ ∃ m ∈ db.memories, m.id = k.id ∧ m.orgId = organization ∧
      m.containerTag = containerTag ∧ result.memory = m.content
  | .chunk result, .chunk k => result.id = k.stableId ∧ ∃ c ∈ db.chunks, ∃ d ∈ db.documents,
      c.stableId = k.stableId ∧ c.documentId = k.documentId ∧ d.id = k.documentId ∧ d.orgId = organization ∧
      result.chunk = c.content
  | _, _ => False

theorem Shows.reduced {result : SearchResult σ} {k : RankedCandidate σ} (h : Shows db organization containerTag result k) :
    Shows db organization containerTag result.reduceOptionalFields k := by
  cases result with
  | memory result =>
    cases k with
    | memory => exact h
    | chunk => exact h
  | chunk result =>
    cases k with
    | memory => exact h
    | chunk => exact h

theorem Shows.id {result : SearchResult σ} {k : RankedCandidate σ} (h : Shows db organization containerTag result k) :
    result.id = k.id := by
  cases result with
  | memory result =>
    cases k with
    | memory k => exact congrArg ("m:" ++ ·) h.1
    | chunk => cases h
  | chunk result =>
    cases k with
    | memory => cases h
    | chunk k => exact congrArg ("c:" ++ ·) h.1

variable [LinearOrder σ] [Zero σ] [One σ] [Mul σ] {now : Time} {engine : HybridEngine σ φ} {query : SearchQuery σ φ}
  {selected : List (RankedCandidate σ)} {results : List (SearchResult σ)} {s t : System}

/-- A result that is read for the key of a selected candidate shows that candidate. -/
theorem read_shows (hs : (machine env).Reachable s) (hrun : (machine env).Run s t)
    (hranked : ∀ k ∈ selected, RankedIn s.db organization containerTag k) {result : SearchResult σ}
    {k : RankedCandidate σ} (hk : k ∈ selected) (hresult : result ∈ resultsById env engine query selected t.db)
    (hkey : result.id = k.id) : Shows t.db organization containerTag result k := by
  rcases mem_resultsById hresult with ⟨r, rfl, _, _, m, hm, _, hid, hmemory, _⟩ |
    ⟨r, rfl, _, _, c, d, hrow, hid, hchunk, _⟩
  · cases k with
    | chunk k => exact absurd hkey (memory_key_ne_chunk_key r.id k.stableId)
    | memory k =>
      have hsame : r.id = k.id := (String.append_right_inj "m:").mp hkey
      obtain ⟨m₀, hm₀, hid₀, horg, hcontainer⟩ := hranked _ hk
      obtain ⟨m', hm', hbecomes⟩ := memory_becomes_of_run hrun hm₀
      obtain rfl := Table.eq_of_key hm' hm (hbecomes.id.trans (hid₀.trans (hsame.symm.trans hid)))
      exact ⟨hsame, m', hm', hbecomes.id.trans hid₀, hbecomes.profile.1.trans horg,
        hbecomes.profile.2.trans hcontainer, hmemory⟩
  · cases k with
    | memory k => exact absurd hkey.symm (memory_key_ne_chunk_key k.id r.id)
    | chunk k =>
      have hsame : r.id = k.stableId := (String.append_right_inj "c:").mp hkey
      have hchunks : ∀ k ∈ chunkSelection selected, RankedRow s.db organization k := fun k hk =>
        hranked _ (mem_chunkSelection.mp hk)
      have hk := mem_chunkSelection.mpr hk
      have howned := StillOwned.run hs hchunks hrun
      obtain ⟨hc, _, hd, hdocument⟩ := chunkRow_eq_some.mp hrow
      have hstable : c.stableId = k.stableId := hid.symm.trans hsame
      have howner := howned.owner c hc k hk hstable
      exact ⟨hsame, c, hc, d, hd, hstable, howner, hdocument.trans howner,
        howned.organization d hd k hk (hdocument.trans howner), hchunk⟩

/-- Whatever is committed between the two reads of a search, every result shows a candidate that was selected, of the
    requesting organization and container, in the document that it was ranked in; the results are in the order of
    the selection, and none appears twice. -/
theorem results_show_selection [Add σ] (hs : (machine env).Reachable s) (hrun : (machine env).Run s t)
    (hresults : engine.search env now organization query s.db t.db = .ok results) :
    ∃ selected, rankHybrid env now engine organization query s.db = .ok selected ∧
      (∀ k ∈ selected, RankedIn s.db organization query.containerTag k) ∧
      List.SublistForall₂ (Shows t.db organization query.containerTag) results selected ∧
      (results.map SearchResult.id).Nodup := by
  obtain ⟨selected, hselected, rfl⟩ := search_ok hresults
  obtain ⟨hranked, hnodup⟩ := rankHybrid_rankedIn hselected
  have hread : List.SublistForall₂ (Shows t.db organization query.containerTag)
      (takeResults selected (resultsById env engine query selected t.db)) selected := by
    apply Selection.imp _ (Selection.with_mem takeResults_selection)
    rintro result k ⟨⟨hresult, hkey⟩, hk⟩
    exact read_shows hs hrun hranked hk hresult hkey
  have hfit : List.SublistForall₂ (Shows t.db organization query.containerTag)
      (fitSearchContext engine.serializedLen searchContextBudgetBytes
        (takeResults selected (resultsById env engine query selected t.db))) selected := by
    apply Selection.trans _ fitSearchContext_selection hread
    rintro result whole k (rfl | rfl) hshows
    · exact hshows
    · exact hshows.reduced
  refine ⟨selected, hselected, hranked, hfit, ?_⟩
  exact (Selection.map_sublist (fun _ _ h => h.id) hfit).nodup hnodup

/-- A search by text for memories and chunks with only the text `a fact`. -/
def factHybrid : HybridEngine Int Unit :=
  { factEngine with
    memoryBm25 := fun _ _ m => if m.content = "a fact" then some (-1) else none
    columns := ⟨fun _ => none, fun _ => none, fun _ => none, fun _ => 0⟩
    reciprocalRank := fun rank => 1000 / (60 + rank)
    serializedLen := fun _ => some 100 }

def factQuery : SearchQuery Int Unit :=
  { text := "a fact"
    mode := .hybrid
    limit := 10
    threshold := 0
    options := { containerTags := ["tag"], documentId := none, filepath := none, filters := none }
    includeForgotten := false
    includeDocuments := false
    includeSummaries := false
    includeRelated := false
    aggregate := false }

/-- Another document is indexed between the two reads of the search. -/
theorem results_show_selection_otherIndexed : ∃ (s t : System) (results : List (SearchResult Int)),
    factHybrid.search unaryEnv 0 "" factQuery s.db t.db = .ok results ∧ results.map SearchResult.id = ["c:xxx"] ∧
    s.db ≠ t.db ∧ ∃ selected, rankHybrid unaryEnv 0 factHybrid "" factQuery s.db = .ok selected ∧
      List.SublistForall₂ (Shows t.db "" "tag") results selected := by
  have hrun : ∃ s ∈ indexedOnce, ∃ t ∈ (machine unaryEnv).replay s otherIndexed,
      ∃ results ∈ (factHybrid.search unaryEnv 0 "" factQuery s.db t.db).toOption,
        results.map SearchResult.id = ["c:xxx"] ∧ s.db ≠ t.db := by
    decide +kernel
  obtain ⟨s, hs, t, ht, results, hresults, hids, hother⟩ := hrun
  have hsearch := Loop.ok_of_mem_toOption hresults
  obtain ⟨selected, hselected, _, hshows, _⟩ :=
    results_show_selection (afterCalls_reachable hs) (.replay .refl ht) hsearch
  exact ⟨s, t, results, hsearch, hids, hother, selected, hselected, hshows⟩

end Server
