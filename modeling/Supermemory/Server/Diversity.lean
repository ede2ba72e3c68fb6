-- SUMMARY: The selection of ranked candidates: limits, aggregation, and documents that repeat.
import Supermemory.Library.Ranking
import Supermemory.Server.RankFusion

/-!
# Diverse selections

`selectDiverse` passes once over the ranked candidates. With aggregation it keeps the best
chunk of every document. Without it, it takes the first candidates as they come, and so can
repeat a document while another one, ranked after the limit, stays out.
-/

namespace Server

section Diversity

variable {σ : Type}

-- ---------------------------------------------------------------------------
-- Documents
-- ---------------------------------------------------------------------------

/-- Two chunks of one document. -/
def sameDocument (left right : RankedCandidate σ) : Bool :=
  decide (∃ id ∈ left.documentId, id ∈ right.documentId)

/-- The documents that have a chunk among the candidates, once for every chunk. -/
def documentsOf (candidates : List (RankedCandidate σ)) : List String :=
  candidates.filterMap RankedCandidate.documentId

theorem sameDocument_comm (left right : RankedCandidate σ) : sameDocument left right = sameDocument right left := by
  simp only [sameDocument, and_comm]

theorem sameDocument_trans (a b c : RankedCandidate σ) (hab : sameDocument a b = true)
    (hbc : sameDocument b c = true) : sameDocument a c = true := by
  obtain ⟨id, ha, hb⟩ := of_decide_eq_true hab
  obtain ⟨id', hb', hc⟩ := of_decide_eq_true hbc
  rw [Option.mem_unique hb' hb] at hc
  exact decide_eq_true ⟨id, ha, hc⟩

-- ---------------------------------------------------------------------------
-- The two modes
-- ---------------------------------------------------------------------------

theorem selectDiverse_false (limit : Nat) (documents : List String) (candidates : List (RankedCandidate σ)) :
    selectDiverse false limit documents candidates = candidates.take limit := by
  induction candidates generalizing limit documents with
  | nil => cases limit <;> rfl
  | cons k rest ih =>
    cases limit with
    | zero => rfl
    | succ limit => simp [selectDiverse, ih]

/-- A memory, or a chunk of a document that is not among the given ones. -/
def unrepresented (documents : List String) (k : RankedCandidate σ) : Bool :=
  decide (∀ id ∈ k.documentId, id ∉ documents)

theorem unrepresented_append (k b : RankedCandidate σ) (documents : List String) :
    unrepresented (k.documentId.toList ++ documents) b =
      (decide (sameDocument b k = false) && unrepresented documents b) := by
  rw [Bool.eq_iff_iff]
  simp only [unrepresented, sameDocument, List.mem_append, Option.mem_toList, Bool.and_eq_true, decide_eq_true_eq,
    decide_eq_false_iff_not, not_or, not_exists, not_and]
  constructor
  · exact fun h => ⟨fun id hid => (h id hid).1, fun id hid => (h id hid).2⟩
  · exact fun h id hid => ⟨h.1 id hid, h.2 id hid⟩

/-- Aggregation passes over the documents that are already represented. -/
theorem selectDiverse_true (limit : Nat) (documents : List String) (candidates : List (RankedCandidate σ)) :
    selectDiverse true limit documents candidates =
      ((candidates.filter (unrepresented documents)).eraseDupsBy sameDocument).take limit := by
  induction candidates generalizing limit documents with
  | nil => cases limit <;> rfl
  | cons k rest ih =>
    cases limit with
    | zero => simp [selectDiverse]
    | succ limit =>
      rw [selectDiverse]
      by_cases hseen : ∃ id ∈ k.documentId, id ∈ documents
      · obtain ⟨id, hid, hmem⟩ := hseen
        rw [if_pos ⟨rfl, id, hid, hmem⟩, ih, List.filter_cons_of_neg]
        exact fun hnew => of_decide_eq_true hnew id hid hmem
      · have hnew : unrepresented documents k = true := decide_eq_true fun id hid hmem => hseen ⟨id, hid, hmem⟩
        rw [if_neg fun h => hseen h.2, ih, List.filter_cons_of_pos hnew, List.eraseDupsBy_cons, List.take_succ_cons,
          List.filter_filter, List.filter_congr fun b _ => unrepresented_append k b documents]

theorem selectDiverse_aggregate (limit : Nat) (candidates : List (RankedCandidate σ)) :
    selectDiverse true limit [] candidates = (candidates.eraseDupsBy sameDocument).take limit := by
  rw [selectDiverse_true, List.filter_eq_self.mpr]
  exact fun k _ => decide_eq_true fun _ _ => List.not_mem_nil

-- ---------------------------------------------------------------------------
-- What the limit admits
-- ---------------------------------------------------------------------------

/-- A diverse selection: the best chunk of every document under aggregation, and otherwise no document twice while
    another one is left out. -/
structure Diverse (aggregate : Bool) (limit : Nat) (candidates selected : List (RankedCandidate σ)) : Prop where
  sublist : selected.Sublist candidates
  length_le : selected.length ≤ limit
  aggregated : aggregate = true → selected = (candidates.eraseDupsBy sameDocument).take limit
  covered : aggregate = false → ¬ (documentsOf selected).Nodup → documentsOf candidates ⊆ documentsOf selected

/-- Within the limit a document repeats, and after it one appears for the first time. -/
def Crowded (limit : Nat) (candidates : List (RankedCandidate σ)) : Prop :=
  ¬ (documentsOf (candidates.take limit)).Nodup ∧
    ∃ id ∈ documentsOf (candidates.drop limit), id ∉ documentsOf (candidates.take limit)

theorem selectDiverse_length (aggregate : Bool) (limit : Nat) (candidates : List (RankedCandidate σ)) :
    (selectDiverse aggregate limit [] candidates).length ≤ limit := by
  cases aggregate with
  | false =>
    rw [selectDiverse_false]
    exact List.length_take_le _ _
  | true =>
    rw [selectDiverse_aggregate]
    exact List.length_take_le _ _

theorem documentsOf_subset_take {limit : Nat} {candidates : List (RankedCandidate σ)} :
    documentsOf candidates ⊆ documentsOf (candidates.take limit) ↔
      ∀ id ∈ documentsOf (candidates.drop limit), id ∈ documentsOf (candidates.take limit) := by
  have hsplit : documentsOf candidates = documentsOf (candidates.take limit) ++ documentsOf (candidates.drop limit) := by
    rw [documentsOf, documentsOf, documentsOf, ← List.filterMap_append, List.take_append_drop]
  rw [hsplit, List.append_subset]
  exact ⟨fun h => h.2, fun h => ⟨List.Subset.refl _, h⟩⟩

/-- The selection is diverse with aggregation, and without it unless the limit crowds out a document. -/
theorem selectDiverse_diverse_iff (aggregate : Bool) (limit : Nat) (candidates : List (RankedCandidate σ)) :
    Diverse aggregate limit candidates (selectDiverse aggregate limit [] candidates) ↔
      aggregate = true ∨ ¬ Crowded limit candidates := by
  cases aggregate with
  | true =>
    refine ⟨fun _ => .inl rfl, fun _ => ?_⟩
    exact ⟨selectDiverse_sublist, selectDiverse_length _ _ _, fun _ => selectDiverse_aggregate _ _,
      fun h => absurd h Bool.true_eq_false.mp⟩
  | false =>
    constructor
    · intro h
      right
      rintro ⟨hrepeat, id, hid, hout⟩
      have hcovered := h.covered rfl
      rw [selectDiverse_false] at hcovered
      exact hout (documentsOf_subset_take.mp (hcovered hrepeat) id hid)
    · intro h
      have hcalm := h.resolve_left Bool.false_ne_true
      constructor
      case sublist => exact selectDiverse_sublist
      case length_le => exact selectDiverse_length _ _ _
      case aggregated => exact fun h => absurd h Bool.false_ne_true
      case covered =>
        rw [selectDiverse_false]
        intro _ hrepeat
        apply documentsOf_subset_take.mpr
        intro id hid
        by_contra hout
        exact hcalm ⟨hrepeat, id, hid, hout⟩

end Diversity

/-- A chunk at a place of a document. -/
def rankedChunk (documentId : String) (ordinal : Nat) : RankedCandidate ℚ :=
  .chunk
    { chunkId := ordinal
      stableId := documentId ++ ":" ++ toString ordinal
      documentId
      ordinal
      semanticScore := none
      lexicalRank := none }

/-- Two chunks of one document fill the limit, and the other document is not represented. -/
theorem selectDiverse_not_diverse :
    ¬ Diverse false 2 [rankedChunk "a" 0, rankedChunk "a" 1, rankedChunk "b" 0]
      (selectDiverse false 2 [] [rankedChunk "a" 0, rankedChunk "a" 1, rankedChunk "b" 0]) := by
  intro h
  have hcovered := h.covered rfl (by decide)
  have hmissing : "b" ∈ documentsOf
      (selectDiverse false 2 [] [rankedChunk "a" 0, rankedChunk "a" 1, rankedChunk "b" 0]) := hcovered (by decide)
  exact absurd hmissing (by decide)

-- ---------------------------------------------------------------------------
-- Selection by counting
-- ---------------------------------------------------------------------------

section Leading

variable {σ : Type} [LinearOrder σ] [Zero σ]

instance : Std.Irrefl (RankedCandidate.ahead (σ := σ)) := ⟨fun _ h => RankedCandidate.ahead_asymm h h⟩

instance : Std.Antisymm (RankedCandidate.ahead (σ := σ)) :=
  ⟨fun _ _ h h' => absurd h' (RankedCandidate.ahead_asymm h)⟩

/-- A candidate that aggregation does not pass over: no chunk of its document is ahead of it. -/
def Leads (aggregate : Bool) (candidates : List (RankedCandidate σ)) (k : RankedCandidate σ) : Prop :=
  aggregate = true → ∀ j ∈ candidates, j.ahead k → sameDocument j k = false

instance (aggregate : Bool) (candidates : List (RankedCandidate σ)) (k : RankedCandidate σ) :
    Decidable (Leads aggregate candidates k) := inferInstanceAs (Decidable (_ → _))

/-- Fewer leading candidates are ahead than the limit admits. -/
def Admitted (aggregate : Bool) (limit : Nat) (candidates : List (RankedCandidate σ)) (k : RankedCandidate σ) : Prop :=
  Leads aggregate candidates k ∧ candidates.countP (fun j => Leads aggregate candidates j ∧ j.ahead k) < limit

/-- The candidates that are selected, by counting. -/
theorem mem_selectDiverse_iff {aggregate : Bool} {limit : Nat} {candidates : List (RankedCandidate σ)}
    (h : (candidates.map RankedCandidate.id).Nodup) {k : RankedCandidate σ} :
    k ∈ selectDiverse aggregate limit [] (candidates.insertionSort RankedCandidate.before) ↔
      k ∈ candidates ∧ Admitted aggregate limit candidates k := by
  unfold Admitted
  have hahead := sorted_ahead h
  have hperm := List.perm_insertionSort RankedCandidate.before candidates
  generalize candidates.insertionSort RankedCandidate.before = sorted at hahead hperm
  cases aggregate with
  | false =>
    have hleads (j : RankedCandidate σ) : Leads false candidates j := fun h => absurd h Bool.false_ne_true
    rw [selectDiverse_false, Ranking.mem_take_iff (fun _ _ => RankedCandidate.ahead_asymm) hahead, hperm.mem_iff,
      hperm.countP_eq]
    simp [hleads]
  | true =>
    have hleads (j : RankedCandidate σ) :
        j ∈ sorted.eraseDupsBy sameDocument ↔ j ∈ candidates ∧ Leads true candidates j := by
      rw [Ranking.mem_eraseDupsBy_iff (fun _ _ => RankedCandidate.ahead_asymm) sameDocument_comm sameDocument_trans
        hahead, hperm.mem_iff]
      simp only [Leads, hperm.mem_iff, forall_const]
    have hsublist := Ranking.eraseDupsBy_sublist (r := sameDocument) sorted
    have hfilter : sorted.eraseDupsBy sameDocument = sorted.filter fun j => Leads true candidates j := by
      apply List.Pairwise.eq_of_mem_iff (hahead.sublist hsublist) (hahead.filter _)
      intro j
      rw [hleads, List.mem_filter, hperm.mem_iff, decide_eq_true_eq]
    rw [selectDiverse_aggregate, Ranking.mem_take_iff (fun _ _ => RankedCandidate.ahead_asymm) (hahead.sublist hsublist),
      hleads, hfilter, List.countP_filter, hperm.countP_eq]
    simp only [Bool.decide_and, Bool.and_comm, and_assoc]

/-- What is ahead of an admitted candidate, and is no chunk, is admitted. -/
theorem Admitted.of_ahead {aggregate : Bool} {limit : Nat} {candidates : List (RankedCandidate σ)}
    {j k : RankedCandidate σ} (h : Admitted aggregate limit candidates k) (hjk : j.ahead k)
    (hmemory : j.documentId = none) : Admitted aggregate limit candidates j := by
  constructor
  · intro _ i _ _
    apply decide_eq_false
    rintro ⟨id, _, hid⟩
    rw [hmemory] at hid
    cases hid
  · refine Nat.lt_of_le_of_lt (List.countP_mono_left fun i _ hi => ?_) h.2
    obtain ⟨hleads, hij⟩ := of_decide_eq_true hi
    exact decide_eq_true ⟨hleads, RankedCandidate.ahead_trans hij hjk⟩

end Leading

end Server
