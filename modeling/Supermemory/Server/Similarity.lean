-- SUMMARY: The similarities that a search reports, and the ranking they should follow.
import Mathlib.Tactic.Linarith
import Mathlib.Tactic.Positivity
import Supermemory.Server.Diversity

/-!
# Reported similarities

A chunk is reported with the score it was fused with. A memory is reported with that score
multiplied by itself, so that it can stand before a chunk of a larger similarity.
-/

namespace Server

open Storage

section Results

variable {σ φ : Type}

def SearchResult.similarity : SearchResult σ → σ
  | memory result => result.similarity
  | chunk result => result.similarity

@[simp] theorem SearchResult.reduceOptionalFields_similarity (result : SearchResult σ) :
    result.reduceOptionalFields.similarity = result.similarity := by
  cases result <;> rfl

/-- What a search returns for the rankings that it retrieved. -/
def HybridEngine.respond [LinearOrder σ] [Zero σ] [One σ] [Add σ] [Mul σ] (env : Env) (engine : HybridEngine σ φ)
    (query : SearchQuery σ φ) (evidence : Evidence σ) (hydrated : Database) : List (SearchResult σ) :=
  let selected := selectCandidates engine query evidence
  fitSearchContext engine.serializedLen searchContextBudgetBytes
    (takeResults selected (resultsById env engine query selected hydrated))

theorem search_respond [LinearOrder σ] [Zero σ] [One σ] [Add σ] [Mul σ] {env : Env} {now : Time}
    {engine : HybridEngine σ φ} {organization : String} {query : SearchQuery σ φ} {ranked hydrated : Database}
    {results : List (SearchResult σ)} (h : engine.search env now organization query ranked hydrated = .ok results) :
    ∃ vector evidence, retrieve env now engine organization query vector ranked = .ok evidence ∧
      results = engine.respond env query evidence hydrated := by
  obtain ⟨selected, hselected, rfl⟩ := search_ok h
  obtain ⟨vector, evidence, _, hevidence, rfl⟩ := rankHybrid_ok hselected
  exact ⟨vector, evidence, hevidence, rfl⟩

-- ---------------------------------------------------------------------------
-- Results by key
-- ---------------------------------------------------------------------------

/-- No two selected candidates have one key, so each finds the result that is stored under its own. -/
theorem takeResults_eq {selected : List (RankedCandidate σ)} (h : (selected.map RankedCandidate.id).Nodup)
    (results : List (SearchResult σ)) :
    takeResults selected results = selected.filterMap fun k => results.find? fun result => result.id = k.id := by
  induction selected generalizing results with
  | nil => rfl
  | cons k rest ih =>
    obtain ⟨hk, hrest⟩ := List.nodup_cons.mp h
    rw [takeResults, List.filterMap_cons]
    split
    case h_1 hnone =>
      rw [hnone]
      exact ih hrest results
    case h_2 result hsome =>
      rw [hsome, ih hrest]
      congr 1
      apply List.filterMap_congr
      intro j hj
      have hne : j.id ≠ k.id := fun hsame => hk (hsame ▸ List.mem_map_of_mem hj)
      rw [List.find?_filter]
      congr 1
      funext other
      simp only [decide_not, Bool.decide_and]
      by_cases hother : other.id = j.id
      · simp [hother, hne]
      · simp [hother]

theorem fitSearchContext_zero (remaining : Nat) (results : List (SearchResult σ)) :
    fitSearchContext (fun _ => some 0) remaining results = results := by
  induction results generalizing remaining with
  | nil => rfl
  | cons result rest ih => simp [fitSearchContext, contextBytes, ih]

/-- The budget takes similarities away and leaves the others in order. -/
theorem fitSearchContext_similarity (serializedLen : SearchResult σ → Option Nat) (remaining : Nat)
    (results : List (SearchResult σ)) :
    ((fitSearchContext serializedLen remaining results).map SearchResult.similarity).Sublist
      (results.map SearchResult.similarity) := by
  apply Selection.map_sublist _ fitSearchContext_selection
  rintro result whole (rfl | rfl)
  · rfl
  · exact whole.reduceOptionalFields_similarity

end Results

-- ---------------------------------------------------------------------------
-- Hydration
-- ---------------------------------------------------------------------------

section Hydrated

variable {φ : Type}

/-- Hydration keeps the score that it found. -/
theorem hydrateMemories_similarity {columns : ContextColumns} {candidates : List (MemoryCandidate ℚ)}
    {hydration : MemoryHydration} {db : Database} {hit : MemorySearchHit ℚ}
    (hhit : hit ∈ hydrateMemories columns candidates hydration db) :
    hit.similarity = memoryScore candidates hit.record.id := by
  have hkept (hits : List (MemorySearchHit ℚ))
      (h : ∀ hit ∈ hits, hit.similarity = memoryScore candidates hit.record.id) :
      ∀ hit ∈ hydrateMemoryHits columns hydration db hits, hit.similarity = memoryScore candidates hit.record.id := by
    induction hits with
    | nil => exact fun _ h => absurd h List.not_mem_nil
    | cons first rest ih =>
      intro hit hhit
      rw [hydrateMemoryHits] at hhit
      rcases List.mem_cons.mp hhit with rfl | hrest
      · split
        · exact h first List.mem_cons_self
        · exact h first List.mem_cons_self
      · exact ih (fun hit hmem => h hit (List.mem_cons_of_mem _ hmem)) hit hrest
  apply hkept _ _ hit hhit
  intro hit hfound
  obtain ⟨candidate, _, hrow⟩ := List.mem_filterMap.mp hfound
  obtain ⟨m, _, rfl⟩ := Option.map_eq_some_iff.mp hrow
  rfl

/-- The last candidate with a key is the only one. -/
theorem find?_reverse_of_key {α κ : Type} [DecidableEq κ] (key : α → κ) {candidates : List α} {k : α}
    (hk : k ∈ candidates) (honly : ∀ j ∈ candidates, key j = key k → j = k) :
    candidates.reverse.find? (fun j => key j = key k) = some k := by
  cases hfind : candidates.reverse.find? fun j => key j = key k with
  | none => exact absurd (decide_eq_true rfl) (List.find?_eq_none.mp hfind k (List.mem_reverse.mpr hk))
  | some j =>
    have hj := List.mem_reverse.mp (List.mem_of_find?_eq_some hfind)
    have hkey := List.find?_some hfind
    rw [honly j hj (of_decide_eq_true hkey)]

theorem memoryScore_selected {selected : List (RankedCandidate ℚ)} (h : (selected.map RankedCandidate.id).Nodup)
    {k : MemoryCandidate ℚ} (hk : .memory k ∈ selected) :
    memoryScore (memorySelection selected) k.id = (RankedCandidate.memory k).score := by
  rw [memoryScore, find?_reverse_of_key (·.id) (mem_memorySelection.mpr hk)]
  · rfl
  · intro j hj hid
    have hsame := List.inj_on_of_nodup_map h (mem_memorySelection.mp hj) hk (RankedCandidate.id_memory.mpr hid)
    exact RankedCandidate.memory.inj hsame

/-- The rows of the chunk rankings, where they are stored, have the stable identifiers that were ranked. -/
def RowsKept (candidates : List (ChunkCandidate ℚ)) (db : Database) : Prop :=
  ∀ k ∈ candidates, ∀ c d, chunkRow db k.chunkId = some (c, d) → c.stableId = k.stableId

theorem candidateScore_selected {selected : List (RankedCandidate ℚ)} {db : Database}
    (h : (selected.map RankedCandidate.id).Nodup) (hkept : RowsKept (chunkSelection selected) db)
    {k : ChunkCandidate ℚ} (hk : .chunk k ∈ selected) {c : Chunk} {d : Document}
    (hrow : chunkRow db k.chunkId = some (c, d)) :
    candidateScore (chunkSelection selected) k.chunkId = (RankedCandidate.chunk k).score := by
  rw [candidateScore, find?_reverse_of_key (·.chunkId) (mem_chunkSelection.mpr hk)]
  · rfl
  · intro j hj hid
    have hstable : j.stableId = k.stableId :=
      (hkept j hj c d (hid ▸ hrow)).symm.trans (hkept k (mem_chunkSelection.mpr hk) c d hrow)
    have hsame := List.inj_on_of_nodup_map h (mem_chunkSelection.mp hj) hk (congrArg ("c:" ++ ·) hstable)
    exact RankedCandidate.chunk.inj hsame

-- ---------------------------------------------------------------------------
-- What a candidate shows
-- ---------------------------------------------------------------------------

/-- The similarity of the result of a candidate. -/
def RankedCandidate.shown : RankedCandidate ℚ → ℚ
  | memory k => min ((memory k).score * (memory k).score) 1
  | chunk k => (chunk k).score

/-- The row of a candidate is stored. -/
def Stored (db : Database) : RankedCandidate ℚ → Prop
  | .memory k => db.memories.find k.id ≠ none
  | .chunk k => chunkRow db k.chunkId ≠ none

variable {env : Env} {engine : HybridEngine ℚ φ} {query : SearchQuery ℚ φ} {selected : List (RankedCandidate ℚ)}
  {db : Database}

/-- The result under the key of a candidate shows its score. -/
theorem resultsById_similarity (h : (selected.map RankedCandidate.id).Nodup)
    (hkept : RowsKept (chunkSelection selected) db) {result : SearchResult ℚ}
    (hresult : result ∈ resultsById env engine query selected db) {k : RankedCandidate ℚ} (hk : k ∈ selected)
    (hid : result.id = k.id) : result.similarity = k.shown := by
  simp only [resultsById, List.mem_reverse, List.mem_append, List.mem_map] at hresult
  rcases hresult with ⟨hit, hhit, rfl⟩ | ⟨hit, hhit, rfl⟩
  · cases k with
    | chunk k => exact absurd hid (memory_key_ne_chunk_key _ _)
    | memory k =>
      have hrecord : hit.record.id = k.id := (String.append_right_inj "m:").mp hid
      have hscore : hit.similarity = (RankedCandidate.memory k).score := by
        rw [hydrateMemories_similarity hhit, hrecord, memoryScore_selected h hk]
      exact congrArg (fun score => min (score * score) 1) hscore
  · cases k with
    | memory k => exact absurd hid.symm (memory_key_ne_chunk_key _ _)
    | chunk k =>
      obtain ⟨chunkId, c, d, hchunk, hrow, rfl⟩ := mem_hydrateChunks.mp hhit
      obtain ⟨j, hj, rfl⟩ := List.mem_map.mp hchunk
      have hstable : c.stableId = k.stableId := (String.append_right_inj "c:").mp hid
      have hjk := (hkept j hj c d hrow).symm.trans hstable
      cases List.inj_on_of_nodup_map h (mem_chunkSelection.mp hj) hk (congrArg ("c:" ++ ·) hjk)
      exact candidateScore_selected h hkept hk hrow

/-- The row of a candidate has a result. -/
theorem resultsById_stored (hkept : RowsKept (chunkSelection selected) db) {k : RankedCandidate ℚ} (hk : k ∈ selected)
    (hstored : Stored db k) : ∃ result ∈ resultsById env engine query selected db, result.id = k.id := by
  simp only [resultsById, List.mem_reverse, List.mem_append, List.mem_map]
  cases k with
  | memory k =>
    obtain ⟨m, hm⟩ := Option.ne_none_iff_exists'.mp hstored
    have hread : readMemory m ∈ (memorySelection selected).filterMap fun j =>
        (db.memories.find j.id).map readMemory :=
      List.mem_filterMap.mpr ⟨k, mem_memorySelection.mpr hk, by rw [hm]; rfl⟩
    rw [← hydrateMemories_records] at hread
    obtain ⟨hit, hhit, hrecord⟩ := List.mem_map.mp hread
    refine ⟨_, .inl ⟨hit, hhit, rfl⟩, ?_⟩
    have hrow : m.id = k.id := Table.find_key hm
    have hid : hit.record.id = k.id := (congrArg MemoryRecord.id hrecord).trans hrow
    exact congrArg ("m:" ++ ·) hid
  | chunk k =>
    obtain ⟨⟨c, d⟩, hrow⟩ := Option.ne_none_iff_exists'.mp hstored
    have hmem := mem_chunkSelection.mpr hk
    have hhit := (@mem_hydrateChunks _ _ _ _ false _).mpr ⟨k.chunkId, c, d, List.mem_map_of_mem hmem, hrow, rfl⟩
    exact ⟨_, .inr ⟨_, hhit, rfl⟩, congrArg ("c:" ++ ·) (hkept k hmem c d hrow)⟩

/-- Results are of stored rows. -/
theorem stored_of_mem_resultsById (h : (selected.map RankedCandidate.id).Nodup)
    (hkept : RowsKept (chunkSelection selected) db) {result : SearchResult ℚ}
    (hresult : result ∈ resultsById env engine query selected db) {k : RankedCandidate ℚ} (hk : k ∈ selected)
    (hid : result.id = k.id) : Stored db k := by
  obtain ⟨r, rfl, j, hj, m, hm, hrow, hr, _⟩ | ⟨r, rfl, j, hj, c, d, hrow, hr, _⟩ := mem_resultsById hresult
  · cases k with
    | chunk k => exact absurd hid (memory_key_ne_chunk_key _ _)
    | memory k =>
      have hkey : m.id = k.id := hr.symm.trans ((String.append_right_inj "m:").mp hid)
      exact Option.ne_none_iff_exists'.mpr ⟨m, Table.find_eq_some.mpr ⟨hm, hkey⟩⟩
  · cases k with
    | memory k => exact absurd hid.symm (memory_key_ne_chunk_key _ _)
    | chunk k =>
      have hstable : c.stableId = k.stableId := hr.symm.trans ((String.append_right_inj "c:").mp hid)
      have hjk := (hkept j (mem_chunkSelection.mpr hj) c d hrow).symm.trans hstable
      cases List.inj_on_of_nodup_map h hj hk (congrArg ("c:" ++ ·) hjk)
      exact Option.ne_none_iff_exists'.mpr ⟨(c, d), hrow⟩

/-- The similarities of all responses, however long their results, follow the ranking if the candidates that are
    stored show theirs in its order. -/
theorem responses_sorted_iff (h : (selected.map RankedCandidate.id).Nodup)
    (hahead : selected.Pairwise RankedCandidate.ahead) (hkept : RowsKept (chunkSelection selected) db) (budget : Nat) :
    (∀ serializedLen : SearchResult ℚ → Option Nat,
      ((fitSearchContext serializedLen budget (takeResults selected (resultsById env engine query selected db))).map
        SearchResult.similarity).Pairwise (· ≥ ·)) ↔
      ∀ a ∈ selected, ∀ b ∈ selected, a.ahead b → Stored db a → Stored db b → b.shown ≤ a.shown := by
  have hlookup (k : RankedCandidate ℚ) (hk : k ∈ selected) (result : SearchResult ℚ)
      (hfind : (resultsById env engine query selected db).find? (fun result => result.id = k.id) = some result) :
      result.similarity = k.shown ∧ Stored db k := by
    have hmem := List.mem_of_find?_eq_some hfind
    have hid := List.find?_some hfind
    have hid : result.id = k.id := of_decide_eq_true hid
    exact ⟨resultsById_similarity h hkept hmem hk hid, stored_of_mem_resultsById h hkept hmem hk hid⟩
  constructor
  · intro hsorted a ha b hb hab hstored hstored'
    have hsorted := hsorted fun _ => some 0
    rw [fitSearchContext_zero, takeResults_eq h, List.pairwise_map, List.pairwise_filterMap] at hsorted
    have hrel := Ranking.rel_of_mem (fun _ _ => RankedCandidate.ahead_asymm) hahead hsorted ha hb hab
    have hfound (k : RankedCandidate ℚ) (hk : k ∈ selected) (hstored : Stored db k) :
        ∃ result, (resultsById env engine query selected db).find? (fun result => result.id = k.id) = some result := by
      obtain ⟨result, hresult, hid⟩ := @resultsById_stored _ env engine query _ _ hkept _ hk hstored
      exact Option.isSome_iff_exists.mp (List.find?_isSome.mpr ⟨result, hresult, decide_eq_true hid⟩)
    obtain ⟨ra, hra⟩ := hfound a ha hstored
    obtain ⟨rb, hrb⟩ := hfound b hb hstored'
    have hge := hrel ra hra rb hrb
    rwa [(hlookup a ha ra hra).1, (hlookup b hb rb hrb).1] at hge
  · intro hshown serializedLen
    apply List.Pairwise.sublist (fitSearchContext_similarity serializedLen budget _)
    rw [takeResults_eq h, List.pairwise_map, List.pairwise_filterMap]
    apply hahead.imp_of_mem
    intro a b ha hb hab ra hra rb hrb
    obtain ⟨hsim, hstored⟩ := hlookup a ha ra hra
    obtain ⟨hsim', hstored'⟩ := hlookup b hb rb hrb
    rw [hsim, hsim']
    exact hshown a ha b hb hab hstored hstored'

end Hydrated

-- ---------------------------------------------------------------------------
-- Similarities and ranks
-- ---------------------------------------------------------------------------

theorem reciprocalRank_nonneg (rank : Nat) : 0 ≤ reciprocalRank rank := by
  unfold reciprocalRank rrfK
  positivity

theorem reciprocalRank_le (rank : Nat) : reciprocalRank rank ≤ 1 / 4 := by
  unfold reciprocalRank rrfK
  apply one_div_le_one_div_of_le
  · norm_num
  · have hrank : (0 : ℚ) ≤ rank := Nat.cast_nonneg rank
    linarith

theorem rankingScore_bounds (id : String) (ranking : List (RankedCandidate ℚ)) :
    0 ≤ rankingScore id ranking ∧ rankingScore id ranking ≤ 1 / 4 := by
  unfold rankingScore
  split
  · exact ⟨reciprocalRank_nonneg _, reciprocalRank_le _⟩
  · norm_num

/-- A score is the sum of four reciprocals. -/
theorem Evidence.score_bounds (evidence : Evidence ℚ) (id : String) :
    0 ≤ evidence.score id ∧ evidence.score id ≤ 1 := by
  have hbounds (ranking : List (RankedCandidate ℚ)) := rankingScore_bounds id ranking
  simp only [Evidence.score, Evidence.rankings, List.map_cons, List.map_nil, List.sum_cons, List.sum_nil]
  constructor
  · linarith [hbounds (evidence.semanticMemories.map .memory), hbounds (evidence.lexicalMemories.map .memory),
      hbounds (evidence.semanticChunks.map .chunk), hbounds (evidence.lexicalChunks.map .chunk)]
  · linarith [hbounds (evidence.semanticMemories.map .memory), hbounds (evidence.lexicalMemories.map .memory),
      hbounds (evidence.semanticChunks.map .chunk), hbounds (evidence.lexicalChunks.map .chunk)]

theorem score_le_of_ahead {a b : RankedCandidate ℚ} (hab : a.ahead b) : b.score ≤ a.score := by
  cases hab with
  | inl hlt => exact hlt.le
  | inr hequal => exact hequal.1.ge

/-- Only a memory ahead of a chunk can show less than it. -/
theorem shown_le_iff {a b : RankedCandidate ℚ} (hab : a.ahead b) (ha : a.score ≤ 1) (hb : 0 ≤ b.score) :
    b.shown ≤ a.shown ↔ ¬ (a.kind = 0 ∧ b.kind = 1 ∧ a.score ^ 2 < b.score) := by
  have hle := score_le_of_ahead hab
  have hsquare : a.score * a.score ≤ 1 := by nlinarith
  have hsquare' : b.score * b.score ≤ 1 := by nlinarith
  cases a with
  | memory a =>
    cases b with
    | memory b =>
      rw [RankedCandidate.shown, RankedCandidate.shown, min_eq_left hsquare, min_eq_left hsquare']
      have hshown : (RankedCandidate.memory b).score * (RankedCandidate.memory b).score ≤
          (RankedCandidate.memory a).score * (RankedCandidate.memory a).score := by nlinarith
      exact iff_of_true hshown fun h => absurd h.2.1 Nat.zero_ne_one
    | chunk b =>
      rw [RankedCandidate.shown, RankedCandidate.shown, min_eq_left hsquare, ← sq, ← not_lt]
      exact not_congr ⟨fun h => ⟨rfl, rfl, h⟩, fun h => h.2.2⟩
  | chunk a =>
    have hkind : (RankedCandidate.chunk a).kind ≠ 0 := Nat.one_ne_zero
    cases b with
    | memory b =>
      rw [RankedCandidate.shown, RankedCandidate.shown, min_eq_left hsquare']
      have hshown : (RankedCandidate.memory b).score * (RankedCandidate.memory b).score ≤
          (RankedCandidate.chunk a).score := by nlinarith
      exact iff_of_true hshown fun h => hkind h.1
    | chunk b => exact iff_of_true hle fun h => hkind h.1

/-- A stored memory stands before a stored chunk that the limit admits, and its squared score is the smaller one. -/
def Overtaken (aggregate : Bool) (limit : Nat) (evidence : Evidence ℚ) (db : Database) : Prop :=
  ∃ m c, .memory m ∈ evidence.candidates ∧ .chunk c ∈ evidence.candidates ∧
    Stored db (.memory m) ∧ Stored db (.chunk c) ∧
    Admitted aggregate limit evidence.candidates (.chunk c) ∧
    (RankedCandidate.chunk c).score ≤ (RankedCandidate.memory m).score ∧
    (RankedCandidate.memory m).score ^ 2 < (RankedCandidate.chunk c).score

theorem candidates_score_bounds {evidence : Evidence ℚ} {k : RankedCandidate ℚ} (hk : k ∈ evidence.candidates) :
    0 ≤ k.score ∧ k.score ≤ 1 := by
  obtain ⟨j, _, rfl⟩ := List.mem_map.mp hk
  rw [withScore_score]
  exact evidence.score_bounds j.id

section Selection

variable {aggregate : Bool} {limit : Nat} {evidence : Evidence ℚ} {db : Database}

/-- The selected chunks come from the two rankings of chunks. -/
theorem selection_rowsKept (hnodup : (evidence.candidates.map RankedCandidate.id).Nodup)
    (h : RowsKept (evidence.semanticChunks ++ evidence.lexicalChunks) db) :
    RowsKept (chunkSelection (selectDiverse aggregate limit [] (evidence.candidates.insertionSort RankedCandidate.before))) db := by
  intro k hk
  have hselected := ((mem_selectDiverse_iff hnodup).mp (mem_chunkSelection.mp hk)).1
  obtain ⟨j, hj, hjk⟩ := List.mem_map.mp hselected
  have hj := (Ranking.eraseDupsBy_sublist _).mem hj
  cases j with
  | memory j => cases hjk
  | chunk j =>
    cases hjk
    apply h j
    rw [← chunkSelection_rankings]
    exact mem_chunkSelection.mpr hj

/-- What is selected shows its scores in order, unless a memory is overtaken. -/
theorem selection_shown_iff (hnodup : (evidence.candidates.map RankedCandidate.id).Nodup) :
    (∀ a ∈ selectDiverse aggregate limit [] (evidence.candidates.insertionSort RankedCandidate.before),
      ∀ b ∈ selectDiverse aggregate limit [] (evidence.candidates.insertionSort RankedCandidate.before),
        a.ahead b → Stored db a → Stored db b → b.shown ≤ a.shown) ↔ ¬ Overtaken aggregate limit evidence db := by
  constructor
  · rintro hshown ⟨m, c, hm, hc, hstored, hstored', hadmitted, hle, hlt⟩
    have hahead : (RankedCandidate.memory m).ahead (.chunk c) := by
      cases hle.lt_or_eq with
      | inl hlt => exact .inl hlt
      | inr heq => exact .inr ⟨heq.symm, .inl Nat.zero_lt_one⟩
    have hmselected := (mem_selectDiverse_iff hnodup).mpr ⟨hm, hadmitted.of_ahead hahead rfl⟩
    have hcselected := (mem_selectDiverse_iff hnodup).mpr ⟨hc, hadmitted⟩
    have hbelow := (shown_le_iff hahead (candidates_score_bounds hm).2 (candidates_score_bounds hc).1).mp
      (hshown _ hmselected _ hcselected hahead hstored hstored')
    exact hbelow ⟨rfl, rfl, hlt⟩
  · intro hcalm a ha b hb hab hstored hstored'
    obtain ⟨ha, _⟩ := (mem_selectDiverse_iff hnodup).mp ha
    obtain ⟨hb, hadmitted⟩ := (mem_selectDiverse_iff hnodup).mp hb
    apply (shown_le_iff hab (candidates_score_bounds ha).2 (candidates_score_bounds hb).1).mpr
    rintro ⟨hkind, hkind', hlt⟩
    cases a with
    | chunk a => exact Nat.one_ne_zero hkind
    | memory a =>
      cases b with
      | memory b => exact Nat.zero_ne_one hkind'
      | chunk b => exact hcalm ⟨a, b, ha, hb, hstored, hstored', hadmitted, score_le_of_ahead hab, hlt⟩

end Selection

/-- A store with one memory and one chunk. -/
def rainStore : Database :=
  { organizations := ∅
    documents := ⟨[
      { id := "document"
        orgId := "org"
        content := "Rain."
        contentHash := ""
        customId := none
        status := .done
        containerTags := ["tag"]
        entityContext := none
        metadata := []
        taskType := "memory"
        filepath := none
        filterByMetadata := []
        dreaming := "instant"
        revision := 1 }], List.nodup_singleton _⟩
    jobs := ∅
    chunks := ⟨[{ id := 1, documentId := "document", ordinal := 0, content := "Rain.", stableId := "chunk" }],
      List.nodup_singleton _⟩
    chunkEmbeddings := ∅
    memories := ⟨[
      { id := "both"
        orgId := "org"
        containerTag := "tag"
        content := "It rains."
        metadata := []
        isInferred := false
        isStatic := false
        isLatest := true
        isForgotten := false
        rootMemoryId := none
        parentMemoryId := none
        version := 1
        forgetAfter := none
        forgetReason := none
        createdAt := 0
        updatedAt := 0 }], List.nodup_singleton _⟩
    memorySources := ∅
    memoryRelations := ∅
    memoryEmbeddings := ⟨[{ memoryId := "both", modelId := "model", dimensions := 1, vector := [], active := true }],
      List.nodup_singleton _⟩
    idsDrawn := 0 }

/-- A search by text alone, which finds everything. -/
def rainEngine : HybridEngine ℚ Unit :=
  { embedQuery := fun _ => .ok none
    vectorDot := fun _ _ => 0
    bm25 := fun _ _ _ => some 1
    matchesMetadataFilter := fun _ _ => true
    parseFilter := fun _ => .ok ()
    memoryBm25 := fun _ _ _ => some 1
    columns :=
      { title := fun _ => none
        documentType := fun _ => none
        summary := fun _ => none
        sourceCreatedAt := fun _ => 0 }
    reciprocalRank
    serializedLen := fun _ => some 500 }

def rainQuery : SearchQuery ℚ Unit :=
  { text := "rain"
    mode := .hybrid
    limit := 10
    threshold := 0
    options := { containerTags := ["tag"], documentId := none, filepath := none, filters := none }
    includeForgotten := false
    includeDocuments := false
    includeSummaries := false
    includeRelated := false
    aggregate := false }

/-- The memory that two rankings find is overtaken by the chunk. -/
theorem bothEvidence_overtaken : Overtaken false 10 bothEvidence rainStore := by
  let m : MemoryCandidate ℚ := { id := "both", semanticScore := some (2 / 61), lexicalRank := none }
  let c : ChunkCandidate ℚ :=
    { chunkId := 1
      stableId := "chunk"
      documentId := "document"
      ordinal := 0
      semanticScore := some (1 / 61)
      lexicalRank := none }
  refine ⟨m, c, by decide +kernel, by decide +kernel, ?_, ?_, ⟨?_, by decide +kernel⟩, by decide +kernel, by decide +kernel⟩
  · change rainStore.memories.find "both" ≠ none
    decide
  · change chunkRow rainStore 1 ≠ none
    decide
  · exact fun h => absurd h Bool.false_ne_true

end Server
