-- SUMMARY: The results of the V3 search: which documents it returns, with which chunks and scores, and in which order.
import Mathlib.Data.List.MinMax
import Supermemory.Library.Ranking
import Supermemory.Server.SearchEngine

/-!
# Groups of hits

`group_v3_results` collects the hits of each document in a result, raises the score of the result with
each of them, and then drops the results below the threshold, sorts the others and cuts them.
-/

namespace Server

open Storage
open Ranking (ThenBy)

variable {σ : Type} {hits : List (SearchHit σ)} {hit : SearchHit σ} {results : List (V3DocumentResult σ)}

-- ---------------------------------------------------------------------------
-- The documents of the hits
-- ---------------------------------------------------------------------------

/-- The documents of the hits, in the order of their first hits. -/
def hitDocuments (hits : List (SearchHit σ)) : List String := (hits.map fun hit => hit.documentId).eraseDups

def firstHit (hits : List (SearchHit σ)) (document : String) : Nat :=
  (hits.map fun hit => hit.documentId).idxOf document

def hitsOf (hits : List (SearchHit σ)) (document : String) : List (SearchHit σ) :=
  hits.filter fun hit => hit.documentId = document

theorem mem_hitDocuments {document : String} : document ∈ hitDocuments hits ↔ ∃ hit ∈ hits, hit.documentId = document := by
  rw [hitDocuments, List.mem_eraseDups, List.mem_map]

theorem hitDocuments_concat : hitDocuments (hits ++ [hit]) =
    if hit.documentId ∈ hitDocuments hits then hitDocuments hits else hitDocuments hits ++ [hit.documentId] := by
  simp only [hitDocuments, List.map_append, List.map_singleton, Ranking.eraseDups_concat, List.mem_eraseDups]

theorem hitDocuments_ordered :
    (hitDocuments hits).Pairwise fun document other => firstHit hits document < firstHit hits other :=
  Ranking.pairwise_eraseDups _

theorem hitDocuments_nodup : (hitDocuments hits).Nodup := by
  apply hitDocuments_ordered.imp
  intro document other hlt heq
  exact hlt.ne (congrArg (firstHit hits) heq)

theorem hitsOf_concat {document : String} : hitsOf (hits ++ [hit]) document =
    if hit.documentId = document then hitsOf hits document ++ [hit] else hitsOf hits document := by
  simp only [hitsOf, List.filter_append, List.filter_cons, List.filter_nil, decide_eq_true_eq]
  split
  · rfl
  · rw [List.append_nil]

theorem hitsOf_of_notMem {document : String} (h : document ∉ hitDocuments hits) : hitsOf hits document = [] := by
  apply List.filter_eq_nil_iff.mpr
  intro hit hhit hsame
  exact h (mem_hitDocuments.mpr ⟨hit, hhit, of_decide_eq_true hsame⟩)

variable [LinearOrder σ] {limit : Nat} {documentThreshold : σ} {includeSummary includeFullDocs : Bool}

/-- The greatest score of the hits of a document. -/
def bestScore (hits : List (SearchHit σ)) (document : String) : WithBot σ :=
  ((hitsOf hits document).map fun hit => hit.score).maximum

/-- A document precedes another one with a greater score, or with the same score and an earlier first hit. -/
def Precedes (hits : List (SearchHit σ)) (document other : String) : Prop :=
  bestScore hits other < bestScore hits document ∨
    bestScore hits document = bestScore hits other ∧ firstHit hits document < firstHit hits other

instance (document other : String) : Decidable (Precedes hits document other) :=
  inferInstanceAs (Decidable (_ ∨ _))

theorem bestScore_concat {document : String} : bestScore (hits ++ [hit]) document =
    if hit.documentId = document then max (bestScore hits document) hit.score else bestScore hits document := by
  rw [bestScore, hitsOf_concat]
  split
  · rw [List.map_append, List.map_singleton, List.maximum_concat]
    rfl
  · rfl

theorem precedes_iff {document other : String} : Precedes hits document other ↔
    ThenBy (fun document => OrderDual.toDual (bestScore hits document))
      (fun document other => firstHit hits document < firstHit hits other) document other := Iff.rfl

theorem Precedes.asymm {document other : String} (h : Precedes hits document other) : ¬ Precedes hits other document :=
  ThenBy.asymm (fun _ _ => Nat.lt_asymm) document other (precedes_iff.mp h)

theorem Precedes.bestScore_le {document other : String} (h : Precedes hits document other) :
    bestScore hits other ≤ bestScore hits document := (precedes_iff.mp h).key_le

-- ---------------------------------------------------------------------------
-- Adding a hit
-- ---------------------------------------------------------------------------

/-- The result of a document with one more hit. -/
def V3DocumentResult.withHit (result : V3DocumentResult σ) (hit : SearchHit σ) : V3DocumentResult σ :=
  { result with
    score := max result.score hit.score
    chunks := result.chunks ++ [chunkResult hit] }

theorem addHit_of_notMem (h : hit.documentId ∉ results.map fun result => result.documentId) :
    addHit includeSummary includeFullDocs hit results =
      results ++ [documentResult includeSummary includeFullDocs hit] := by
  induction results with
  | nil => rfl
  | cons existing rest ih =>
    rw [List.map_cons, List.mem_cons, not_or] at h
    rw [addHit, if_neg (Ne.symm h.1), ih h.2, List.cons_append]

theorem addHit_of_mem (hnodup : (results.map fun result => result.documentId).Nodup)
    (h : hit.documentId ∈ results.map fun result => result.documentId) :
    addHit includeSummary includeFullDocs hit results =
      results.map fun result => if result.documentId = hit.documentId then result.withHit hit else result := by
  induction results with
  | nil => cases h
  | cons existing rest ih =>
    rw [List.map_cons] at h hnodup
    rw [addHit, List.map_cons]
    by_cases hsame : existing.documentId = hit.documentId
    · have hrest : rest.map (fun result => if result.documentId = hit.documentId then result.withHit hit else result) =
          rest.map fun result => result := by
        apply List.map_congr_left
        intro result hresult
        apply if_neg
        intro hother
        exact (List.nodup_cons.mp hnodup).1 (List.mem_map.mpr ⟨result, hresult, hother.trans hsame.symm⟩)
      rw [if_pos hsame, if_pos hsame, hrest, List.map_id']
      rfl
    · rw [if_neg hsame, if_neg hsame, ih hnodup.of_cons]
      exact (List.mem_cons.mp h).resolve_left (Ne.symm hsame)

-- ---------------------------------------------------------------------------
-- Collecting the hits
-- ---------------------------------------------------------------------------

/-- A result has the hits of its document in their order, and their greatest score. -/
structure Collected (hits : List (SearchHit σ)) (result : V3DocumentResult σ) : Prop where
  chunks : result.chunks = (hitsOf hits result.documentId).map chunkResult
  score : result.score = bestScore hits result.documentId

theorem Collected.withHit {result : V3DocumentResult σ} (h : Collected hits result)
    (hsame : result.documentId = hit.documentId) : Collected (hits ++ [hit]) (result.withHit hit) := by
  constructor
  · change result.chunks ++ [chunkResult hit] = (hitsOf (hits ++ [hit]) result.documentId).map chunkResult
    rw [hitsOf_concat, if_pos hsame.symm, List.map_append, h.chunks]
    rfl
  · change ((max result.score hit.score : σ) : WithBot σ) = bestScore (hits ++ [hit]) result.documentId
    rw [bestScore_concat, if_pos hsame.symm, WithBot.coe_max, h.score]

theorem Collected.other {result : V3DocumentResult σ} (h : Collected hits result)
    (hother : result.documentId ≠ hit.documentId) : Collected (hits ++ [hit]) result := by
  constructor
  · rw [hitsOf_concat, if_neg hother.symm, h.chunks]
  · rw [bestScore_concat, if_neg hother.symm, h.score]

theorem collected_documentResult (h : hit.documentId ∉ hitDocuments hits) :
    Collected (hits ++ [hit]) (documentResult includeSummary includeFullDocs hit) := by
  constructor
  · change [chunkResult hit] = (hitsOf (hits ++ [hit]) hit.documentId).map chunkResult
    rw [hitsOf_concat, if_pos rfl, hitsOf_of_notMem h]
    rfl
  · change (hit.score : WithBot σ) = bestScore (hits ++ [hit]) hit.documentId
    rw [bestScore, hitsOf_concat, if_pos rfl, hitsOf_of_notMem h]
    rfl

/-- There is one result for each document of the hits, in the order of their first hits. -/
structure Collects (hits : List (SearchHit σ)) (results : List (V3DocumentResult σ)) : Prop where
  documents : (results.map fun result => result.documentId) = hitDocuments hits
  collected : ∀ result ∈ results, Collected hits result

theorem collects_nil : Collects (σ := σ) [] [] where
  documents := rfl
  collected _ hresult := absurd hresult List.not_mem_nil

theorem Collects.addHit (h : Collects hits results) :
    Collects (hits ++ [hit]) (addHit includeSummary includeFullDocs hit results) := by
  by_cases hfound : hit.documentId ∈ hitDocuments hits
  · rw [addHit_of_mem (h.documents ▸ hitDocuments_nodup) (h.documents ▸ hfound)]
    constructor
    · rw [hitDocuments_concat, if_pos hfound, ← h.documents, List.map_map]
      apply List.map_congr_left
      intro result _
      rw [Function.comp]
      split
      · rfl
      · rfl
    · intro added hadded
      cases List.mem_map.mp hadded with
      | intro result hresult =>
        rw [← hresult.2]
        split
        · exact (h.collected result hresult.1).withHit ‹_›
        · exact (h.collected result hresult.1).other ‹_›
  · rw [addHit_of_notMem (h.documents ▸ hfound)]
    constructor
    · rw [hitDocuments_concat, if_neg hfound, ← h.documents, List.map_append]
      rfl
    · intro result hresult
      cases List.mem_append.mp hresult with
      | inl hold =>
        apply (h.collected result hold).other
        intro hsame
        exact hfound (hsame ▸ h.documents ▸ List.mem_map_of_mem hold)
      | inr hnew =>
        cases List.mem_singleton.mp hnew
        exact collected_documentResult hfound

/-- The results collect all hits, in whatever order the hits of the documents come. -/
theorem collects_foldl :
    Collects hits (hits.foldl (fun results hit => Server.addHit includeSummary includeFullDocs hit results) []) := by
  induction hits using List.reverseRecOn with
  | nil => exact collects_nil
  | append_singleton hits hit ih =>
    rw [List.foldl_append]
    exact ih.addHit

-- ---------------------------------------------------------------------------
-- The selected documents
-- ---------------------------------------------------------------------------

/-- The results partition the hits of the documents that they are about, which are the first `limit` ones of those
    that reach the threshold. -/
structure Partitions (hits : List (SearchHit σ)) (limit : Nat) (documentThreshold : σ)
    (results : List (V3DocumentResult σ)) : Prop where
  length_le : results.length ≤ limit
  nodup : (results.map fun result => result.documentId).Nodup
  collected : ∀ result ∈ results, Collected hits result
  ordered : results.Pairwise fun result later => Precedes hits result.documentId later.documentId
  absent : ∀ document ∈ hitDocuments hits,
    document ∉ results.map (fun result => result.documentId) ↔
      bestScore hits document < documentThreshold ∨ limit ≤ (hitDocuments hits).countP (Precedes hits · document)

/-- The results that reach the threshold, sorted by their scores. -/
def rankedResults (documentThreshold : σ) (results : List (V3DocumentResult σ)) : List (V3DocumentResult σ) :=
  (results.filter fun result => documentThreshold ≤ result.score).insertionSort
    fun left right => right.score ≤ left.score

theorem mem_rankedResults {result : V3DocumentResult σ} :
    result ∈ rankedResults documentThreshold results ↔ result ∈ results ∧ documentThreshold ≤ result.score := by
  rw [rankedResults, List.mem_insertionSort, List.mem_filter, decide_eq_true_eq]

/-- Sorting by the scores keeps the order of the first hits. -/
theorem Collects.ordered (h : Collects hits results) : (rankedResults documentThreshold results).Pairwise
    fun result later => Precedes hits result.documentId later.documentId := by
  have hdocuments : (results.map fun result => result.documentId).Pairwise _ := h.documents ▸ hitDocuments_ordered
  have hfirst := (List.pairwise_map.mp hdocuments).filter fun result => documentThreshold ≤ result.score
  have hsorted : (rankedResults documentThreshold results).Pairwise
      (ThenBy (fun result => OrderDual.toDual result.score) _) := Ranking.pairwise_insertionSort hfirst
  apply hsorted.imp_of_mem
  intro result later hresult hlater hahead
  have hscore := (h.collected result (mem_rankedResults.mp hresult).1).score
  have hlaterscore := (h.collected later (mem_rankedResults.mp hlater).1).score
  rw [Precedes, ← hscore, ← hlaterscore]
  cases hahead with
  | inl hlt => exact .inl (WithBot.coe_lt_coe.mpr hlt)
  | inr heq => exact .inr ⟨congrArg _ heq.1, heq.2⟩

/-- The documents that precede one that reaches the threshold reach it too. -/
theorem Collects.countP_rankedResults (h : Collects hits results) {document : String}
    (hreached : documentThreshold ≤ bestScore hits document) :
    (rankedResults documentThreshold results).countP (fun result => Precedes hits result.documentId document) =
      (hitDocuments hits).countP (Precedes hits · document) := by
  rw [rankedResults, (List.perm_insertionSort _ _).countP_eq, List.countP_filter, ← h.documents, List.countP_map]
  apply List.countP_congr
  intro result hresult
  have hretained : Precedes hits result.documentId document → documentThreshold ≤ result.score := by
    intro hahead
    apply WithBot.coe_le_coe.mp
    rw [(h.collected result hresult).score]
    exact hreached.trans hahead.bestScore_le
  simp only [Bool.and_eq_true, decide_eq_true_eq, Function.comp]
  exact and_iff_left_of_imp hretained

theorem Collects.mem_take_iff (h : Collects hits results) {result : V3DocumentResult σ} (hresult : result ∈ results) :
    result ∈ (rankedResults documentThreshold results).take limit ↔
      documentThreshold ≤ bestScore hits result.documentId ∧
        (hitDocuments hits).countP (Precedes hits · result.documentId) < limit := by
  have hscore := (h.collected result hresult).score
  rw [Ranking.mem_take_iff (fun _ _ => Precedes.asymm) h.ordered, mem_rankedResults, ← WithBot.coe_le_coe, hscore,
    and_iff_right hresult]
  apply and_congr_right
  intro hreached
  rw [h.countP_rankedResults hreached]

/-- A document is selected where it reaches the threshold and fewer than `limit` documents precede it. -/
theorem Collects.selected_iff (h : Collects hits results) {document : String} (hdocument : document ∈ hitDocuments hits) :
    document ∈ ((rankedResults documentThreshold results).take limit).map (fun result => result.documentId) ↔
      documentThreshold ≤ bestScore hits document ∧ (hitDocuments hits).countP (Precedes hits · document) < limit := by
  constructor
  · intro hselected
    cases List.mem_map.mp hselected with
    | intro result hresult =>
      have hmem := (mem_rankedResults.mp (List.mem_of_mem_take hresult.1)).1
      rw [← hresult.2]
      exact (h.mem_take_iff hmem).mp hresult.1
  · intro hreached
    rw [← h.documents] at hdocument
    cases List.mem_map.mp hdocument with
    | intro result hresult =>
      apply List.mem_map.mpr ⟨result, (h.mem_take_iff hresult.1).mpr _, hresult.2⟩
      rw [hresult.2]
      exact hreached

/-- Grouping keeps every hit of a document that it selects, for any interleaving of the hits of the documents. -/
theorem groupV3Results_partitions :
    Partitions hits limit documentThreshold
      (groupV3Results hits limit documentThreshold includeSummary includeFullDocs) := by
  have hcollects : Collects hits (hits.foldl (fun results hit => addHit includeSummary includeFullDocs hit results) []) :=
    collects_foldl
  have hordered : ((rankedResults documentThreshold _).take limit).Pairwise _ :=
    hcollects.ordered.sublist (List.take_sublist limit _)
  constructor
  · exact List.length_take_le limit _
  · apply List.pairwise_map.mpr
    apply hordered.imp
    intro result later hahead hsame
    exact hahead.asymm (hsame ▸ hahead)
  · intro result hresult
    exact hcollects.collected result (mem_rankedResults.mp (List.mem_of_mem_take hresult)).1
  · exact hordered
  · intro document hdocument
    rw [← not_lt, ← not_le, ← not_and_or]
    exact not_congr (hcollects.selected_iff hdocument)

end Server
