-- SUMMARY: Rank fusion in exact arithmetic: the score of every candidate, and the order of all.
import Mathlib.Algebra.Order.Field.Rat
import Mathlib.Data.String.Basic
import Mathlib.Tactic.Linarith
import Supermemory.Library.Ranking
import Supermemory.Server.HybridSearch

/-!
# Rank fusion

Scores are taken as rationals here, so that sums of reciprocal ranks are exact. The score
that a candidate is fused with depends on its ranks alone, and the comparison of candidates
with different keys is strict and total: the order in which a hash map returns them leaves
no trace.
-/

namespace Server

open Storage

-- ---------------------------------------------------------------------------
-- Ranks
-- ---------------------------------------------------------------------------

def rrfK : ℚ := 60

/-- `1.0 / (RRF_K + rank as f64)`, without rounding. -/
def reciprocalRank (rank : Nat) : ℚ := 1 / (rrfK + rank)

section Rankings

variable {σ : Type}

def Evidence.rankings (evidence : Evidence σ) : List (List (RankedCandidate σ)) :=
  [evidence.semanticMemories.map .memory, evidence.lexicalMemories.map .memory,
    evidence.semanticChunks.map .chunk, evidence.lexicalChunks.map .chunk]

/-- Rankings without repetition, the lexical ones of which carry their ranks. -/
structure Evidence.Ranked (evidence : Evidence σ) : Prop where
  nodup : ∀ ranking ∈ evidence.rankings, (ranking.map RankedCandidate.id).Nodup
  memoryRanks : evidence.lexicalMemories.map (·.lexicalRank) =
    (List.range' 1 evidence.lexicalMemories.length).map some
  chunkRanks : evidence.lexicalChunks.map (·.lexicalRank) =
    (List.range' 1 evidence.lexicalChunks.length).map some

end Rankings

/-- What a ranking adds to the score of a key: the reciprocal of its rank, if it is ranked. -/
def rankingScore (id : String) (ranking : List (RankedCandidate ℚ)) : ℚ :=
  if id ∈ ranking.map RankedCandidate.id then reciprocalRank ((ranking.map RankedCandidate.id).idxOf id + 1) else 0

def Evidence.score (evidence : Evidence ℚ) (id : String) : ℚ := (evidence.rankings.map (rankingScore id)).sum

-- ---------------------------------------------------------------------------
-- The totals of the map
-- ---------------------------------------------------------------------------

/-- The reciprocal ranks that pieces of evidence give to a key. -/
def evidenceTotal (evidence : List (String × Nat)) (id : String) : ℚ :=
  ((evidence.filter fun e => e.1 = id).map fun e => reciprocalRank e.2).sum

@[simp] theorem evidenceTotal_append (evidence rest : List (String × Nat)) (id : String) :
    evidenceTotal (evidence ++ rest) id = evidenceTotal evidence id + evidenceTotal rest id := by
  simp only [evidenceTotal, List.filter_append, List.map_append, List.sum_append]

theorem evidenceTotal_singleton (e : String × Nat) (id : String) :
    evidenceTotal [e] id = if e.1 = id then reciprocalRank e.2 else 0 := by
  by_cases h : e.1 = id
  · simp [evidenceTotal, h]
  · simp [evidenceTotal, h]

theorem evidenceTotal_of_not_mem {evidence : List (String × Nat)} {id : String} (h : ∀ e ∈ evidence, e.1 ≠ id) :
    evidenceTotal evidence id = 0 := by
  rw [evidenceTotal, List.filter_eq_nil_iff.mpr]
  · rfl
  · intro e he
    simpa using h e he

/-- A ranking gives one reciprocal rank to each of its keys. -/
theorem evidenceTotal_zipIdx {ids : List String} (h : ids.Nodup) (id : String) (first : Nat) :
    evidenceTotal (ids.zipIdx first) id = if id ∈ ids then reciprocalRank (ids.idxOf id + first) else 0 := by
  induction ids generalizing first with
  | nil => rfl
  | cons head rest ih =>
    obtain ⟨hhead, hrest⟩ := List.nodup_cons.mp h
    rw [List.zipIdx_cons, ← List.singleton_append, evidenceTotal_append, evidenceTotal_singleton, ih hrest]
    by_cases hid : head = id
    · subst hid
      simp [hhead]
    · simp [hid, Ne.symm hid, List.idxOf_cons_ne _ hid, Nat.add_right_comm, Nat.add_assoc]

/-- The keys and the ranks of pieces of evidence. -/
def evidenceKeys {σ : Type} (evidence : List (RankedCandidate σ × Nat)) : List (String × Nat) :=
  evidence.map fun e => (e.1.id, e.2)

/-- The map holds the total of every key that has evidence. -/
structure FusedTotals (evidence : List (RankedCandidate ℚ × Nat)) (fused : List (RankedCandidate ℚ × ℚ)) : Prop where
  present : ∀ e ∈ evidence, ∃ entry ∈ fused, entry.1.id = e.1.id
  total : ∀ entry ∈ fused, entry.2 = evidenceTotal (evidenceKeys evidence) entry.1.id

theorem FusedTotals.addEvidence {evidence : List (RankedCandidate ℚ × Nat)} {fused : List (RankedCandidate ℚ × ℚ)}
    (h : FusedTotals evidence fused) (e : RankedCandidate ℚ × Nat) :
    FusedTotals (evidence ++ [e]) (addEvidence reciprocalRank fused e) := by
  have hkeys (id : String) : evidenceTotal (evidenceKeys (evidence ++ [e])) id =
      evidenceTotal (evidenceKeys evidence) id + if e.1.id = id then reciprocalRank e.2 else 0 := by
    rw [evidenceKeys, List.map_append, evidenceTotal_append]
    exact congrArg (_ + ·) (evidenceTotal_singleton (e.1.id, e.2) id)
  unfold Server.addEvidence
  split
  case isTrue hany =>
    have hsame (entry : RankedCandidate ℚ × ℚ) :
        (if entry.1.id = e.1.id then (entry.1, entry.2 + reciprocalRank e.2) else entry).1.id = entry.1.id := by
      split <;> rfl
    constructor
    case present =>
      intro e' he'
      have hold : ∃ entry ∈ fused, entry.1.id = e'.1.id := by
        rcases List.mem_append.mp he' with hold | hnew
        · exact h.present e' hold
        · obtain ⟨entry, hentry, hid⟩ := List.any_eq_true.mp hany
          rw [List.mem_singleton.mp hnew]
          exact ⟨entry, hentry, of_decide_eq_true hid⟩
      obtain ⟨entry, hentry, hid⟩ := hold
      exact ⟨_, List.mem_map_of_mem hentry, (hsame entry).trans hid⟩
    case total =>
      intro entry' hentry'
      obtain ⟨entry, hentry, rfl⟩ := List.mem_map.mp hentry'
      rw [hsame, hkeys, ← h.total entry hentry]
      by_cases hid : entry.1.id = e.1.id
      · rw [if_pos hid, if_pos hid.symm]
      · rw [if_neg hid, if_neg (Ne.symm hid), add_zero]
  case isFalse hany =>
    have hnew (entry : RankedCandidate ℚ × ℚ) (hentry : entry ∈ fused) : e.1.id ≠ entry.1.id := by
      intro hid
      exact hany (List.any_eq_true.mpr ⟨entry, hentry, decide_eq_true hid.symm⟩)
    constructor
    case present =>
      intro e' he'
      rcases List.mem_append.mp he' with hold | hlast
      · obtain ⟨entry, hentry, hid⟩ := h.present e' hold
        exact ⟨entry, List.mem_append_left _ hentry, hid⟩
      · rw [List.mem_singleton.mp hlast]
        exact ⟨_, List.mem_append_right _ (List.mem_singleton.mpr rfl), rfl⟩
    case total =>
      intro entry hentry
      rw [hkeys]
      rcases List.mem_append.mp hentry with hold | hlast
      · rw [if_neg (hnew entry hold), add_zero]
        exact h.total entry hold
      · rw [List.mem_singleton.mp hlast, if_pos rfl, evidenceTotal_of_not_mem, zero_add]
        intro e' he' hid
        obtain ⟨e'', he'', rfl⟩ := List.mem_map.mp he'
        obtain ⟨entry', hentry', hid'⟩ := h.present e'' he''
        exact hnew entry' hentry' (hid.symm.trans hid'.symm)

theorem fused_totals {evidence rest : List (RankedCandidate ℚ × Nat)} {fused : List (RankedCandidate ℚ × ℚ)}
    (h : FusedTotals evidence fused) : FusedTotals (evidence ++ rest) (rest.foldl (addEvidence reciprocalRank) fused) := by
  induction rest generalizing evidence fused with
  | nil => rwa [List.append_nil]
  | cons e rest ih =>
    rw [← List.singleton_append, ← List.append_assoc]
    exact ih (h.addEvidence e)

-- ---------------------------------------------------------------------------
-- Scores by rank
-- ---------------------------------------------------------------------------

section Keys

variable {σ α : Type}

/-- A ranking whose places are counted. -/
theorem evidenceKeys_zipIdx (candidate : α → RankedCandidate σ) (ranking : List α) :
    evidenceKeys (ranking.zipIdx.map fun (a, rank) => (candidate a, rank + 1)) =
      ((ranking.map candidate).map RankedCandidate.id).zipIdx 1 := by
  rw [evidenceKeys, List.map_map, List.map_map, List.zipIdx_map, List.zipIdx_succ, List.map_map]
  rfl

/-- A ranking that carries its ranks. -/
theorem evidenceKeys_lexical (candidate : α → RankedCandidate σ) (rank : α → Option Nat) {ranking : List α}
    (h : ranking.map rank = (List.range' 1 ranking.length).map some) :
    evidenceKeys (ranking.map fun a => (candidate a, (rank a).getD 1)) =
      ((ranking.map candidate).map RankedCandidate.id).zipIdx 1 := by
  have hranks : ranking.map (fun a => (rank a).getD 1) = List.range' 1 ranking.length := by
    have hmap := congrArg (List.map fun r : Option Nat => r.getD 1) h
    rwa [List.map_map, List.map_map, List.map_id''] at hmap
    exact fun _ => rfl
  rw [List.zipIdx_eq_zip_range', List.length_map, List.length_map, ← hranks, List.map_map, List.zip_map']
  exact List.map_map

end Keys

theorem evidenceTotal_ranking {ranking : List (RankedCandidate ℚ)} (h : (ranking.map RankedCandidate.id).Nodup)
    (id : String) : evidenceTotal ((ranking.map RankedCandidate.id).zipIdx 1) id = rankingScore id ranking :=
  evidenceTotal_zipIdx h id 1

/-- The total of a key is the sum of its reciprocal ranks. -/
theorem evidenceTotal_ranked {evidence : Evidence ℚ} (h : evidence.Ranked) (id : String) :
    evidenceTotal (evidenceKeys evidence.ranked) id = evidence.score id := by
  have hkeys : evidenceKeys evidence.ranked =
      (evidence.rankings.map fun ranking => (ranking.map RankedCandidate.id).zipIdx 1).flatten := by
    simp only [Evidence.ranked, evidenceKeys, List.map_append]
    rw [← evidenceKeys, ← evidenceKeys, ← evidenceKeys, ← evidenceKeys, evidenceKeys_zipIdx, evidenceKeys_zipIdx,
      evidenceKeys_lexical _ _ h.memoryRanks, evidenceKeys_lexical _ _ h.chunkRanks]
    simp [Evidence.rankings]
  have hsum (rankings : List (List (RankedCandidate ℚ)))
      (hnodup : ∀ ranking ∈ rankings, (ranking.map RankedCandidate.id).Nodup) :
      evidenceTotal (rankings.map fun ranking => (ranking.map RankedCandidate.id).zipIdx 1).flatten id =
        (rankings.map (rankingScore id)).sum := by
    induction rankings with
    | nil => rfl
    | cons ranking rest ih =>
      rw [List.map_cons, List.flatten_cons, evidenceTotal_append, List.map_cons, List.sum_cons,
        evidenceTotal_ranking (hnodup ranking List.mem_cons_self),
        ih fun other hother => hnodup other (List.mem_cons_of_mem _ hother)]
  rw [hkeys]
  exact hsum evidence.rankings h.nodup

theorem withScore_score {σ : Type} [Zero σ] (candidate : RankedCandidate σ) (score : σ) :
    (candidate.withScore score).score = score := by
  cases candidate <;> rfl

theorem fuseCandidates_totals (evidence : Evidence ℚ) :
    FusedTotals evidence.ranked (evidence.ranked.foldl (addEvidence reciprocalRank) []) := by
  have hempty : FusedTotals [] [] :=
    ⟨fun _ h => absurd h List.not_mem_nil, fun _ h => absurd h List.not_mem_nil⟩
  exact fused_totals hempty

/-- Candidates are fused with the scores of their ranks. -/
theorem fuseCandidates_score {evidence : Evidence ℚ} (h : evidence.Ranked) {k : RankedCandidate ℚ}
    (hk : k ∈ fuseCandidates reciprocalRank evidence) : k.score = evidence.score k.id := by
  have htotals := fuseCandidates_totals evidence
  obtain ⟨entry, hentry, rfl⟩ := List.mem_map.mp hk
  rw [withScore_score, RankedCandidate.withScore_id, htotals.total entry hentry]
  exact evidenceTotal_ranked h entry.1.id

-- ---------------------------------------------------------------------------
-- Fusion in closed form
-- ---------------------------------------------------------------------------

def sameKey {σ : Type} (left right : RankedCandidate σ) : Bool := left.id = right.id

theorem sameKey_trans {σ : Type} (a b c : RankedCandidate σ) (hab : sameKey a b = true) (hbc : sameKey b c = true) :
    sameKey a c = true :=
  decide_eq_true ((of_decide_eq_true hab).trans (of_decide_eq_true hbc))

/-- The candidates of the rankings, each once, with the scores of their ranks. -/
def Evidence.candidates (evidence : Evidence ℚ) : List (RankedCandidate ℚ) :=
  (evidence.rankings.flatten.eraseDupsBy sameKey).map fun k => k.withScore (evidence.score k.id)

theorem ranked_fst {σ : Type} (evidence : Evidence σ) : evidence.ranked.map Prod.fst = evidence.rankings.flatten := by
  have hcounted {α : Type} (candidate : α → RankedCandidate σ) (ranking : List α) :
      (ranking.zipIdx.map fun (a, rank) => (candidate a, rank + 1)).map Prod.fst = ranking.map candidate := by
    rw [List.map_map, ← List.zipIdx_map_fst 0 ranking, List.map_map, List.zipIdx_map_fst]
    rfl
  simp only [Evidence.ranked, List.map_append, hcounted, List.map_map, Evidence.rankings]
  simp [Function.comp_def]

/-- The map keeps the first candidate of every key. -/
theorem fused_fst {σ : Type} [Add σ] {weight : Nat → σ} (evidence : List (RankedCandidate σ × Nat)) :
    (evidence.foldl (addEvidence weight) []).map Prod.fst = (evidence.map Prod.fst).eraseDupsBy sameKey := by
  induction evidence using List.reverseRecOn with
  | nil => rfl
  | append_singleton evidence e ih =>
    rw [List.foldl_append, List.foldl_cons, List.foldl_nil, List.map_append, List.map_singleton,
      Ranking.eraseDupsBy_concat sameKey_trans, ← Ranking.any_eraseDupsBy sameKey_trans, ← ih, List.any_map]
    unfold addEvidence
    have hany (fused : List (RankedCandidate σ × σ)) : (fused.any fun entry => decide (entry.1.id = e.1.id)) =
        fused.any (sameKey e.1 ∘ Prod.fst) := by
      simp only [sameKey, Function.comp_def, eq_comm]
    rw [hany]
    split
    · rw [List.map_map]
      apply List.map_congr_left
      intro entry _
      dsimp only [Function.comp_apply]
      split
      · rfl
      · rfl
    · rw [List.map_append]
      rfl

/-- Fusion through the map, in closed form. -/
theorem fuseCandidates_eq {evidence : Evidence ℚ} (h : evidence.Ranked) :
    fuseCandidates reciprocalRank evidence = evidence.candidates := by
  have htotals := fuseCandidates_totals evidence
  rw [Evidence.candidates, ← ranked_fst, ← @fused_fst _ _ reciprocalRank, List.map_map, fuseCandidates]
  apply List.map_congr_left
  intro entry hentry
  exact congrArg entry.1.withScore ((htotals.total entry hentry).trans (evidenceTotal_ranked h entry.1.id))

-- ---------------------------------------------------------------------------
-- The order of candidates
-- ---------------------------------------------------------------------------

section Order

variable {σ : Type} [LinearOrder σ] [Zero σ]

def compareRankedCandidates (left right : RankedCandidate σ) : Ordering :=
  (compare right.score left.score).then ((compare left.kind right.kind).then (compare left.id right.id))

/-- The candidates that the comparison does not put in the reverse order. -/
theorem compareRankedCandidates_ne_gt {left right : RankedCandidate σ} :
    compareRankedCandidates left right ≠ .gt ↔ left.before right := by
  simp only [compareRankedCandidates, ne_eq, Ordering.then_eq_gt, compare_gt_iff_gt, compare_eq_iff_eq,
    RankedCandidate.before]
  grind

namespace RankedCandidate

/-- The score decides, then the kind, then the key. -/
def ahead (left right : RankedCandidate σ) : Prop :=
  right.score < left.score ∨ left.score = right.score ∧
    (left.kind < right.kind ∨ left.kind = right.kind ∧ left.id < right.id)

instance : DecidableRel (ahead (σ := σ)) := fun _ _ => inferInstanceAs (Decidable (_ ∨ _))

theorem before_total (left right : RankedCandidate σ) : left.before right ∨ right.before left := by
  simp only [before]
  grind

theorem before_trans {a b c : RankedCandidate σ} (hab : a.before b) (hbc : b.before c) : a.before c := by
  simp only [before] at *
  grind

theorem before_antisymm {left right : RankedCandidate σ} (h : left.before right) (h' : right.before left) :
    left.id = right.id := by
  simp only [before] at *
  grind

/-- Between different keys the order is strict. -/
theorem ahead_of_before {left right : RankedCandidate σ} (h : left.before right) (hid : left.id ≠ right.id) :
    left.ahead right := by
  simp only [before, ahead] at *
  grind

theorem ahead_trans {a b c : RankedCandidate σ} (hab : a.ahead b) (hbc : b.ahead c) : a.ahead c := by
  simp only [ahead] at *
  grind

theorem ahead_asymm {left right : RankedCandidate σ} (h : left.ahead right) : ¬ right.ahead left := by
  simp only [ahead] at *
  grind

instance : Std.Total (before (σ := σ)) := ⟨before_total⟩

instance : IsTrans (RankedCandidate σ) before := ⟨fun _ _ _ => before_trans⟩

end RankedCandidate

/-- Sorting candidates with different keys. -/
theorem sorted_ahead {candidates : List (RankedCandidate σ)} (h : (candidates.map RankedCandidate.id).Nodup) :
    (candidates.insertionSort RankedCandidate.before).Pairwise RankedCandidate.ahead := by
  have hkeys : (candidates.insertionSort RankedCandidate.before).Pairwise fun a b => a.id ≠ b.id :=
    List.pairwise_map.mp (((List.perm_insertionSort _ candidates).map _).nodup_iff.mpr h)
  have hbefore := List.pairwise_insertionSort RankedCandidate.before candidates
  exact (hbefore.and hkeys).imp fun h => RankedCandidate.ahead_of_before h.1 h.2

/-- The order in which candidates come leaves no trace. -/
theorem sorted_eq_of_perm {candidates order : List (RankedCandidate σ)}
    (h : (candidates.map RankedCandidate.id).Nodup) (hperm : order.Perm candidates) :
    order.insertionSort RankedCandidate.before = candidates.insertionSort RankedCandidate.before := by
  have hsorted := List.pairwise_insertionSort RankedCandidate.before order
  have hperm' := (List.perm_insertionSort RankedCandidate.before order).trans
    (hperm.trans (List.perm_insertionSort RankedCandidate.before candidates).symm)
  apply List.Perm.eq_of_pairwise _ hsorted (List.pairwise_insertionSort _ candidates) hperm'
  intro a b ha hb hab hba
  have ha := hperm.mem_iff.mp ((List.mem_insertionSort _).mp ha)
  have hb := (List.mem_insertionSort _).mp hb
  exact List.inj_on_of_nodup_map h ha hb (RankedCandidate.before_antisymm hab hba)

end Order

-- ---------------------------------------------------------------------------
-- The keys of the map
-- ---------------------------------------------------------------------------

section Fused

variable {σ : Type}

theorem fuseCandidates_key [Add σ] (weight : Nat → σ) {evidence : Evidence σ} {id : String} :
    id ∈ (fuseCandidates weight evidence).map RankedCandidate.id ↔
      id ∈ evidence.rankings.flatten.map RankedCandidate.id := by
  rw [← ranked_fst, List.map_map]
  constructor
  · intro hid
    obtain ⟨k, hk, rfl⟩ := List.mem_map.mp hid
    obtain ⟨e, he, score, rfl⟩ := (fuseCandidates_ranked weight evidence).1 k hk
    rw [RankedCandidate.withScore_id]
    exact List.mem_map_of_mem he
  · intro hid
    obtain ⟨e, he, rfl⟩ := List.mem_map.mp hid
    exact fuseCandidates_complete weight he

theorem memorySelection_key {candidates : List (RankedCandidate σ)} {id : String} :
    id ∈ (memorySelection candidates).map (·.id) ↔ "m:" ++ id ∈ candidates.map RankedCandidate.id := by
  constructor
  · intro hid
    obtain ⟨k, hk, rfl⟩ := List.mem_map.mp hid
    exact List.mem_map_of_mem (f := RankedCandidate.id) (mem_memorySelection.mp hk)
  · intro hid
    obtain ⟨k, hk, hkey⟩ := List.mem_map.mp hid
    cases k with
    | memory k =>
      rw [← (String.append_right_inj "m:").mp hkey]
      exact List.mem_map_of_mem (f := (·.id)) (mem_memorySelection.mpr hk)
    | chunk k => exact absurd hkey.symm (memory_key_ne_chunk_key _ _)

theorem chunkSelection_key {candidates : List (RankedCandidate σ)} {id : String} :
    id ∈ (chunkSelection candidates).map (·.stableId) ↔ "c:" ++ id ∈ candidates.map RankedCandidate.id := by
  constructor
  · intro hid
    obtain ⟨k, hk, rfl⟩ := List.mem_map.mp hid
    exact List.mem_map_of_mem (f := RankedCandidate.id) (mem_chunkSelection.mp hk)
  · intro hid
    obtain ⟨k, hk, hkey⟩ := List.mem_map.mp hid
    cases k with
    | memory k => exact absurd hkey (memory_key_ne_chunk_key _ _)
    | chunk k =>
      rw [← (String.append_right_inj "c:").mp hkey]
      exact List.mem_map_of_mem (f := (·.stableId)) (mem_chunkSelection.mpr hk)

theorem memorySelection_nodup {candidates : List (RankedCandidate σ)}
    (h : (candidates.map RankedCandidate.id).Nodup) : ((memorySelection candidates).map (·.id)).Nodup := by
  apply List.pairwise_map.mpr
  apply List.pairwise_filterMap.mpr
  apply (List.pairwise_map.mp h).imp
  rintro (a | a) (b | b) hne _ ⟨⟩ _ ⟨⟩ hid
  exact hne (RankedCandidate.id_memory.mpr hid)

theorem chunkSelection_nodup {candidates : List (RankedCandidate σ)}
    (h : (candidates.map RankedCandidate.id).Nodup) : ((chunkSelection candidates).map (·.stableId)).Nodup := by
  apply List.pairwise_map.mpr
  apply List.pairwise_filterMap.mpr
  apply (List.pairwise_map.mp h).imp
  rintro (a | a) (b | b) hne _ ⟨⟩ _ ⟨⟩ hid
  exact hne (congrArg ("c:" ++ ·) hid)

theorem memorySelection_rankings (evidence : Evidence σ) :
    memorySelection evidence.rankings.flatten = evidence.semanticMemories ++ evidence.lexicalMemories := by
  simp [memorySelection, Evidence.rankings, List.filterMap_append, List.filterMap_map]

theorem chunkSelection_rankings (evidence : Evidence σ) :
    chunkSelection evidence.rankings.flatten = evidence.semanticChunks ++ evidence.lexicalChunks := by
  simp [chunkSelection, Evidence.rankings, List.filterMap_append, List.filterMap_map]

end Fused

theorem count_of_nodup {ids ranked : List String} (hnodup : ids.Nodup) (hmem : ∀ id, id ∈ ids ↔ id ∈ ranked)
    (id : String) : ids.count id = if id ∈ ranked then 1 else 0 := by
  rw [hnodup.count]
  exact if_congr (hmem id) rfl rfl

/-- Every memory and every chunk of the rankings is fused once, with the sum of its reciprocal ranks, and the sorted
    candidates do not depend on the order in which the map returns them. -/
theorem fuseCandidates_exact {evidence : Evidence ℚ} (h : evidence.Ranked) :
    (∀ id, ((memorySelection (fuseCandidates reciprocalRank evidence)).map (·.id)).count id =
      if id ∈ (evidence.semanticMemories ++ evidence.lexicalMemories).map (·.id) then 1 else 0) ∧
    (∀ id, ((chunkSelection (fuseCandidates reciprocalRank evidence)).map (·.stableId)).count id =
      if id ∈ (evidence.semanticChunks ++ evidence.lexicalChunks).map (·.stableId) then 1 else 0) ∧
    (∀ k ∈ fuseCandidates reciprocalRank evidence, k.score = evidence.score k.id) ∧
    ∀ order : List (RankedCandidate ℚ), order.Perm (fuseCandidates reciprocalRank evidence) →
      order.insertionSort RankedCandidate.before =
        (fuseCandidates reciprocalRank evidence).insertionSort RankedCandidate.before ∧
      (order.insertionSort RankedCandidate.before).Pairwise RankedCandidate.ahead := by
  have hnodup := (fuseCandidates_ranked reciprocalRank evidence).2
  refine ⟨?_, ?_, fun k hk => fuseCandidates_score h hk, ?_⟩
  · apply count_of_nodup (memorySelection_nodup hnodup)
    intro id
    rw [memorySelection_key, fuseCandidates_key, ← memorySelection_key, memorySelection_rankings]
  · apply count_of_nodup (chunkSelection_nodup hnodup)
    intro id
    rw [chunkSelection_key, fuseCandidates_key, ← chunkSelection_key, chunkSelection_rankings]
  · intro order hperm
    have hsorted := sorted_eq_of_perm hnodup hperm
    refine ⟨hsorted, ?_⟩
    rw [hsorted]
    exact sorted_ahead hnodup

/-- A memory that both rankings of memories find, and a chunk. -/
def bothEvidence : Evidence ℚ :=
  { semanticMemories := [{ id := "both", semanticScore := some (9 / 10), lexicalRank := none }]
    lexicalMemories := [{ id := "both", semanticScore := none, lexicalRank := some 1 }]
    semanticChunks := [
      { chunkId := 1
        stableId := "chunk"
        documentId := "document"
        ordinal := 0
        semanticScore := some (1 / 2)
        lexicalRank := none }]
    lexicalChunks := [] }

theorem bothEvidence_ranked : bothEvidence.Ranked := by
  constructor
  case nodup => decide
  case memoryRanks => rfl
  case chunkRanks => rfl

theorem fuseCandidates_exact_both :
    ((memorySelection (fuseCandidates reciprocalRank bothEvidence)).map (·.id)).count "both" = 1 ∧
      ∀ k ∈ fuseCandidates reciprocalRank bothEvidence, k.id = "m:both" → k.score = 2 / 61 := by
  obtain ⟨hmemories, _, hscores, _⟩ := fuseCandidates_exact bothEvidence_ranked
  refine ⟨hmemories "both", fun k hk hid => ?_⟩
  have hscore : bothEvidence.score "m:both" = 2 / 61 := by decide +kernel
  rw [hscores k hk, hid, hscore]

end Server
