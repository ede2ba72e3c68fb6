-- SUMMARY: No batch exceeds the limits of the executor: the cut into microbatches, and an invariant of the scheduler.
import Supermemory.MemoryEngine.SchedulerSteps
import Mathlib.Data.List.MinMax

/-!
# The limits of a batch

The padded size of a batch is the number of its texts times its longest text. It is
bounded twice, with two running maxima: where one call is cut into microbatches, and
where the scheduler merges requests. A request that does not fit is carried over to the
next iteration, where it is a batch of its own at first, so that the bound of the cut
is what it needs.
-/

namespace Embedding

/-- Texts of these lengths may be one batch. -/
structure Fits (maxItems maxPaddedTokens : Nat) (lengths : List Nat) : Prop where
  items : lengths.length ≤ maxItems
  padded : ∀ tokens ∈ lengths, lengths.length * tokens ≤ maxPaddedTokens

/-- The longest text decides the padded size. -/
theorem Fits.padded_longest {maxItems maxPaddedTokens : Nat} {lengths : List Nat}
    (h : Fits maxItems maxPaddedTokens lengths) : lengths.length * lengths.foldr max 0 ≤ maxPaddedTokens := by
  rcases Nat.eq_zero_or_pos lengths.length with hempty | hsome
  · simp [hempty]
  · rw [Nat.mul_comm]
    apply (Nat.le_div_iff_mul_le hsome).mp
    apply List.max_le_of_forall_le
    intro tokens htokens
    apply (Nat.le_div_iff_mul_le hsome).mpr
    rw [Nat.mul_comm]
    exact h.padded tokens htokens

-- ---------------------------------------------------------------------------
-- Microbatches
-- ---------------------------------------------------------------------------

namespace Microbatching

variable {maxItems maxPaddedTokens : Nat} {m m' : Microbatching} {pieces : List (List Nat)} {last : List Nat}

/-- What the loop has cut off so far, and the piece that it is at. -/
structure Cuts (maxItems maxPaddedTokens : Nat) (m : Microbatching) (pieces : List (List Nat))
    (last : List Nat) : Prop where
  batches : m.batches = pieces.map List.length
  items : m.items = last.length
  longest : ∀ tokens ∈ last, tokens ≤ m.longest
  pieces : ∀ piece ∈ pieces, piece ≠ [] ∧ Fits maxItems maxPaddedTokens piece
  last : Fits maxItems maxPaddedTokens last

theorem Cuts.start : Cuts maxItems maxPaddedTokens {} [] [] where
  batches := rfl
  items := rfl
  longest := by simp
  pieces := by simp
  last := ⟨Nat.zero_le _, by simp⟩

/-- A text that does not fit starts the next piece. -/
theorem Cuts.flush {tokens : Nat} (h : Cuts maxItems maxPaddedTokens m pieces last) (hitems : 0 < m.items)
    (hone : 1 ≤ maxItems) (htokens : tokens ≤ maxPaddedTokens) :
    Cuts maxItems maxPaddedTokens { batches := m.batches ++ [m.items], items := 1, longest := max 1 tokens }
      (pieces ++ [last]) [tokens] where
  batches := by simp [h.batches, h.items]
  items := rfl
  longest := by simp
  pieces piece hpiece := by
    rcases List.mem_append.mp hpiece with hpiece | hpiece
    · exact h.pieces piece hpiece
    · obtain rfl := List.mem_singleton.mp hpiece
      refine ⟨?_, h.last⟩
      apply List.ne_nil_of_length_pos
      rwa [← h.items]
  last := ⟨hone, by simpa using htokens⟩

/-- A text that fits joins the piece. -/
theorem Cuts.join {tokens : Nat} (h : Cuts maxItems maxPaddedTokens m pieces last)
    (hitems : m.items + 1 ≤ maxItems) (hpadded : (m.items + 1) * max m.longest tokens ≤ maxPaddedTokens) :
    Cuts maxItems maxPaddedTokens { m with items := m.items + 1, longest := max m.longest tokens }
      pieces (last ++ [tokens]) := by
  have hlongest : ∀ t ∈ last ++ [tokens], t ≤ max m.longest tokens := by
    intro t ht
    rcases List.mem_append.mp ht with ht | ht
    · exact (h.longest t ht).trans (Nat.le_max_left _ _)
    · exact List.mem_singleton.mp ht ▸ Nat.le_max_right _ _
  have hlength : (last ++ [tokens]).length = m.items + 1 := by simp [h.items]
  exact {
    batches := h.batches
    items := hlength.symm
    longest := hlongest
    pieces := h.pieces
    last :=
      { items := hlength ▸ hitems
        padded := fun t ht => by
          rw [hlength]
          exact (Nat.mul_le_mul_left _ (hlongest t ht)).trans hpadded } }

theorem next_error {tokens : Nat} :
    (∃ error, m.next maxItems maxPaddedTokens tokens = .error error) ↔ maxPaddedTokens < tokens := by
  unfold next
  by_cases hlong : maxPaddedTokens < tokens
  · simp [hlong]
  · rw [if_neg hlong]
    dsimp only
    split <;> simp [hlong]

/-- One turn of the loop moves one text into the pieces. -/
theorem Cuts.next {tokens : Nat} (h : Cuts maxItems maxPaddedTokens m pieces last) (hone : 1 ≤ maxItems)
    (hnext : m.next maxItems maxPaddedTokens tokens = .ok m') :
    ∃ pieces' last', Cuts maxItems maxPaddedTokens m' pieces' last' ∧
      pieces'.flatten ++ last' = pieces.flatten ++ last ++ [tokens] := by
  unfold Microbatching.next at hnext
  split at hnext
  · cases hnext
  · rename_i htokens
    dsimp only at hnext
    split at hnext
    · rename_i hfull
      cases hnext
      exact ⟨_, _, h.flush hfull.1 hone (Nat.le_of_not_lt htokens), by simp⟩
    · rename_i hroom
      cases hnext
      rcases Nat.eq_zero_or_pos m.items with hempty | hsome
      · -- The first text of a piece is its own bound.
        obtain rfl : last = [] := List.length_eq_zero_iff.mp (h.items ▸ hempty)
        refine ⟨pieces, [tokens], ?_, by simp⟩
        exact {
          batches := h.batches
          items := by simp [hempty]
          longest := by simp
          pieces := h.pieces
          last := ⟨hone, by simpa using Nat.le_of_not_lt htokens⟩ }
      · have hfits := not_or.mp (not_and.mp hroom hsome)
        exact ⟨_, _, h.join (Nat.le_of_not_lt hfits.1) (Nat.le_of_not_lt hfits.2), by simp⟩

theorem run_error {lengths : List Nat} :
    (∃ error, m.run maxItems maxPaddedTokens lengths = .error error) ↔
      ∃ tokens ∈ lengths, maxPaddedTokens < tokens := by
  induction lengths generalizing m with
  | nil => simp [run]
  | cons tokens rest ih =>
    simp only [List.mem_cons, exists_eq_or_imp]
    cases hnext : m.next maxItems maxPaddedTokens tokens with
    | error error =>
      have htokens := next_error.mp ⟨error, hnext⟩
      simp only [run, hnext, htokens, true_or, iff_true]
      exact ⟨error, rfl⟩
    | ok m' =>
      have htokens : ¬ maxPaddedTokens < tokens := by
        intro hlong
        obtain ⟨error, herror⟩ := (next_error (m := m)).mpr hlong
        cases hnext.symm.trans herror
      simp only [run, hnext, htokens, false_or]
      exact ih

/-- The texts that the loop has counted. -/
theorem finish_sum : m.finish.sum = m.batches.sum + m.items := by
  unfold finish
  split
  · simp
  · rename_i hitems
    rw [Nat.eq_zero_of_not_pos hitems, Nat.add_zero]

theorem next_sum {tokens : Nat} (h : m.next maxItems maxPaddedTokens tokens = .ok m') :
    m'.finish.sum = m.finish.sum + 1 := by
  rw [finish_sum, finish_sum]
  unfold next at h
  split at h
  · cases h
  · dsimp only at h
    split at h
    · cases h
      simp
    · cases h
      exact (Nat.add_assoc _ _ _).symm

theorem run_cons_ok {tokens : Nat} {rest : List Nat}
    (h : m.run maxItems maxPaddedTokens (tokens :: rest) = .ok m') :
    ∃ m₁, m.next maxItems maxPaddedTokens tokens = .ok m₁ ∧ m₁.run maxItems maxPaddedTokens rest = .ok m' := by
  rw [run] at h
  cases hnext : m.next maxItems maxPaddedTokens tokens with
  | error error =>
    rw [hnext] at h
    cases h
  | ok m₁ =>
    rw [hnext] at h
    exact ⟨m₁, rfl, h⟩

theorem run_sum {lengths : List Nat} (h : m.run maxItems maxPaddedTokens lengths = .ok m') :
    m'.finish.sum = m.finish.sum + lengths.length := by
  induction lengths generalizing m with
  | nil =>
    cases h
    rfl
  | cons tokens rest ih =>
    obtain ⟨m₁, hnext, hrest⟩ := run_cons_ok h
    rw [ih hrest, next_sum hnext, List.length_cons, Nat.add_assoc, Nat.add_comm 1]

theorem Cuts.run {lengths : List Nat} (h : Cuts maxItems maxPaddedTokens m pieces last) (hone : 1 ≤ maxItems)
    (hrun : m.run maxItems maxPaddedTokens lengths = .ok m') :
    ∃ pieces' last', Cuts maxItems maxPaddedTokens m' pieces' last' ∧
      pieces'.flatten ++ last' = pieces.flatten ++ last ++ lengths := by
  induction lengths generalizing m pieces last with
  | nil =>
    cases hrun
    exact ⟨pieces, last, h, by simp⟩
  | cons tokens rest ih =>
    obtain ⟨m₁, hnext, hrest⟩ := run_cons_ok hrun
    obtain ⟨pieces₁, last₁, h₁, hflat₁⟩ := h.next hone hnext
    obtain ⟨pieces', last', h', hflat'⟩ := ih h₁ hrest
    refine ⟨pieces', last', h', ?_⟩
    rw [hflat', hflat₁]
    simp

end Microbatching

section Lengths

variable {maxItems maxPaddedTokens : Nat} {lengths counts : List Nat}

/-- The counts are the lengths of pieces that fit and that make up the list, in order. -/
theorem microbatchLengths_ok (hone : 1 ≤ maxItems)
    (h : microbatchLengths lengths maxItems maxPaddedTokens = .ok counts) :
    ∃ pieces : List (List Nat), pieces.flatten = lengths ∧ counts = pieces.map List.length ∧
      ∀ piece ∈ pieces, piece ≠ [] ∧ Fits maxItems maxPaddedTokens piece := by
  unfold microbatchLengths at h
  cases hrun : Microbatching.run maxItems maxPaddedTokens {} lengths with
  | error error =>
    rw [hrun] at h
    cases h
  | ok m =>
    rw [hrun] at h
    cases h
    obtain ⟨pieces, last, hcuts, hflat⟩ := Microbatching.Cuts.start.run hone hrun
    rw [List.flatten_nil, List.nil_append, List.nil_append] at hflat
    dsimp only [Microbatching.finish]
    split
    · rename_i hitems
      refine ⟨pieces ++ [last], by simpa using hflat, by simp [hcuts.batches, hcuts.items], ?_⟩
      intro piece hpiece
      rcases List.mem_append.mp hpiece with hpiece | hpiece
      · exact hcuts.pieces piece hpiece
      · obtain rfl := List.mem_singleton.mp hpiece
        exact ⟨List.ne_nil_of_length_pos (hcuts.items ▸ hitems), hcuts.last⟩
    · rename_i hitems
      have hnone : last.length = 0 := hcuts.items ▸ Nat.eq_zero_of_not_pos hitems
      obtain rfl := List.length_eq_zero_iff.mp hnone
      exact ⟨pieces, by simpa using hflat, hcuts.batches, hcuts.pieces⟩

theorem microbatchLengths_sum (h : microbatchLengths lengths maxItems maxPaddedTokens = .ok counts) :
    counts.sum = lengths.length := by
  unfold microbatchLengths at h
  cases hrun : Microbatching.run maxItems maxPaddedTokens {} lengths with
  | error error =>
    rw [hrun] at h
    cases h
  | ok m =>
    rw [hrun] at h
    cases h
    simpa [Microbatching.finish] using Microbatching.run_sum hrun

theorem microbatchLengths_error :
    (∃ error, microbatchLengths lengths maxItems maxPaddedTokens = .error error) ↔
      ∃ tokens ∈ lengths, maxPaddedTokens < tokens := by
  have hrun : (∃ error, Microbatching.run maxItems maxPaddedTokens {} lengths = .error error) ↔
      ∃ tokens ∈ lengths, maxPaddedTokens < tokens := Microbatching.run_error
  rw [← hrun]
  unfold microbatchLengths
  cases Microbatching.run maxItems maxPaddedTokens {} lengths <;> simp [Except.map]

theorem splitLengths_map {α β : Type*} (f : α → β) (values : List α) :
    (counts.splitLengths values).map (List.map f) = counts.splitLengths (values.map f) := by
  induction counts generalizing values with
  | nil => rfl
  | cons n counts ih => simp [ih]

theorem splitLengths_flatten {α : Type*} (pieces : List (List α)) :
    (pieces.map List.length).splitLengths pieces.flatten = pieces := by
  induction pieces with
  | nil => rfl
  | cons piece pieces ih => simp [ih]

end Lengths

-- ---------------------------------------------------------------------------
-- Merged requests
-- ---------------------------------------------------------------------------

theorem Request.le_maxItemTokens {r : Request} {value : PreparedEmbeddingInput} (h : value ∈ r.values) :
    value.tokenCount ≤ r.maxItemTokens := by
  have hmem : value.tokenCount ∈ r.values.map (·.tokenCount) := List.mem_map_of_mem h
  obtain ⟨m, hm⟩ := Option.isSome_iff_exists.mp (List.isSome_max?_of_mem hmem)
  rw [Request.maxItemTokens, hm, Option.getD_some]
  exact (List.max?_le_iff hm).mp (Nat.le_refl m) _ hmem

/-- The longest text in tokens. -/
def Batch.longest (b : Batch) : Nat := (b.values.map (·.tokenCount)).foldr max 0

/-- The batch respects the limits, and its requests are all queries or all bulk work. -/
structure Within (limits : Limits) (b : Batch) : Prop where
  items : b.values.length ≤ limits.maxItems
  padded : b.values.length * b.longest ≤ limits.maxPaddedTokens
  unmixed : ∀ r ∈ b.requests, r.2.priority = .query ↔ b.priority = .query

variable {limits : Limits} {priority : EmbeddingPriority} {requests : Requests} {items longest : Nat}

def FitsLimits (limits : Limits) (values : List PreparedEmbeddingInput) : Prop :=
  Fits limits.maxItems limits.maxPaddedTokens (values.map (·.tokenCount))

/-- A request that may be a batch, received from the queue of its priority. -/
structure Admissible (limits : Limits) (r : EmbeddingPriority × Request) : Prop where
  fits : FitsLimits limits r.2.values
  queue : r.1 = .query ↔ r.2.priority = .query

/-- The running maxima of the merge loop are those of the requests that it has merged. -/
structure Merges (limits : Limits) (priority : EmbeddingPriority) (requests : Requests) (items longest : Nat) :
    Prop where
  items : items = (requests.flatMap (·.2.values)).length
  longest : ∀ value ∈ requests.flatMap (·.2.values), value.tokenCount ≤ longest
  fits : FitsLimits limits (requests.flatMap (·.2.values))
  unmixed : ∀ r ∈ requests, r.1 = .query ↔ priority = .query

theorem Merges.start {r : EmbeddingPriority × Request} (h : Admissible limits r) :
    Merges limits r.1 [r] r.2.values.length r.2.maxItemTokens where
  items := by simp
  longest value hvalue := Request.le_maxItemTokens (by simpa using hvalue)
  fits := by simpa using h.fits
  unmixed r' hr' := by rw [List.mem_singleton.mp hr']

theorem Merges.join {r : EmbeddingPriority × Request} (h : Merges limits priority requests items longest)
    (hclass : r.1 = .query ↔ priority = .query) (hitems : items + r.2.values.length ≤ limits.maxItems)
    (hpadded : (items + r.2.values.length) * max longest r.2.maxItemTokens ≤ limits.maxPaddedTokens) :
    Merges limits priority (requests ++ [r]) (items + r.2.values.length) (max longest r.2.maxItemTokens) := by
  have hvalues : (requests ++ [r]).flatMap (·.2.values) = requests.flatMap (·.2.values) ++ r.2.values := by simp
  have hlength : ((requests ++ [r]).flatMap (·.2.values)).length = items + r.2.values.length := by
    rw [hvalues, List.length_append, h.items]
  have hlongest : ∀ value ∈ (requests ++ [r]).flatMap (·.2.values),
      value.tokenCount ≤ max longest r.2.maxItemTokens := by
    intro value hvalue
    rw [hvalues] at hvalue
    rcases List.mem_append.mp hvalue with hvalue | hvalue
    · exact (h.longest value hvalue).trans (Nat.le_max_left _ _)
    · exact (Request.le_maxItemTokens hvalue).trans (Nat.le_max_right _ _)
  exact {
    items := hlength.symm
    longest := hlongest
    fits := {
      items := by rwa [List.length_map, hlength]
      padded := by
        intro tokens htokens
        obtain ⟨value, hvalue, rfl⟩ := List.mem_map.mp htokens
        rw [List.length_map, hlength]
        exact (Nat.mul_le_mul_left _ (hlongest value hvalue)).trans hpadded }
    unmixed := by
      intro r' hr'
      rcases List.mem_append.mp hr' with hr' | hr'
      · exact h.unmixed r' hr'
      · exact List.mem_singleton.mp hr' ▸ hclass }

/-- A batch of merged requests respects the limits. -/
theorem Merges.within {bulkWaiting : Bool} (h : Merges limits priority requests items longest)
    (hadmissible : ∀ r ∈ requests, Admissible limits r) :
    Within limits { priority, requests, bulkWaiting } where
  items := by
    have hitems := h.fits.items
    rwa [List.length_map] at hitems
  padded := by
    have hpadded := h.fits.padded_longest
    rwa [List.length_map] at hpadded
  unmixed r hr := (hadmissible r hr).queue.symm.trans (h.unmixed r hr)

-- ---------------------------------------------------------------------------
-- The invariant
-- ---------------------------------------------------------------------------

/-- The pieces that a call has not submitted. -/
def Progress.pieces {V : Type*} : Progress V → List (List PreparedEmbeddingInput)
  | submitting _ piece pieces => piece :: pieces
  | awaiting _ _ pieces => pieces
  | returned _ | dropped => []

variable {V : Type*} {model : EmbeddingModel V} {s s' : Executor V}

/-- Everything on its way to the model fits the limits. -/
structure Bounded (limits : Limits) (s : Executor V) : Prop where
  calls : ∀ c ∈ s.calls, ∀ piece ∈ c.progress.pieces, FitsLimits limits piece
  pending : ∀ r ∈ s.pending, Admissible limits r
  merging : ∀ priority requests items longest, s.phase = .merging priority requests items longest →
    Merges limits priority requests items longest
  batches : ∀ b ∈ s.batches, Within limits b

theorem Progress.pieces_proceed {output : List (EmbeddedText V)} {pieces : List (List PreparedEmbeddingInput)} :
    (proceed output pieces).pieces = pieces := by
  cases pieces <;> rfl

/-- A call starts with pieces that fit. -/
theorem Progress.start_fits (hone : 1 ≤ limits.maxItems) (values : List Text) :
    ∀ piece ∈ (start model limits values).pieces, FitsLimits limits piece := by
  unfold start
  split
  · simp [pieces]
  · rename_i prepared _
    split
    · simp [pieces]
    · rename_i counts hcounts
      rw [pieces_proceed]
      obtain ⟨lengths, hflat, rfl, hfits⟩ := microbatchLengths_ok hone hcounts
      intro piece hpiece
      have hsplit : ((lengths.map List.length).splitLengths prepared).map (List.map (·.tokenCount)) = lengths := by
        rw [splitLengths_map, ← hflat, splitLengths_flatten]
      have hmem : piece.map (·.tokenCount) ∈ lengths := hsplit ▸ List.mem_map_of_mem hpiece
      exact (hfits _ hmem).2

/-- The batch of the merge loop, when it is handed to the model. -/
theorem Bounded.executed (h : Bounded limits s) (hphase : s.phase = .merging priority requests items longest)
    {bulkWaiting : Bool} : Within limits { priority, requests, bulkWaiting } := by
  apply (h.merging _ _ _ _ hphase).within
  intro r hr
  apply h.pending r
  rw [Executor.pending, hphase]
  exact List.mem_append_right _ hr

/-- A batch starts with an admissible request. -/
theorem Bounded.start {next : EmbeddingPriority × Request} {t : Executor V} (h : Bounded limits s)
    (htakes : s.Takes (next, t)) :
    Merges limits next.1 [next] next.2.values.length next.2.maxItemTokens := by
  apply Merges.start
  apply h.pending next
  exact List.mem_append_left _ (htakes.queued.mem_iff.mp List.mem_cons_self)

theorem Bounded.turn {event : Executor.Event} (h : Bounded limits s) (hfree : s.SlotFree)
    (hturn : s.Turn limits event s') : Bounded limits s' where
  calls := hturn.same.calls ▸ h.calls
  pending r hr := h.pending r ((hturn.pending hfree).mem_iff.mp hr)
  merging priority requests items longest hphase := by
    cases hturn with
    | idle => cases hphase
    | start _ htakes =>
      cases hphase
      have hmarked : Bounded limits { s with bulkWaiting := !s.bulk.isEmpty } := { h with }
      exact hmarked.start htakes
    | wake _ htakes =>
      cases hphase
      exact h.start htakes
    | join hbefore _ _ hclass hitems hpadded =>
      cases hphase
      exact (h.merging _ _ _ _ hbefore).join hclass hitems hpadded
    | defer => cases hphase
    | execute => cases hphase
  batches b hb := by
    cases hturn with
    | idle => exact h.batches b hb
    | start _ htakes => exact h.batches b (htakes.same.batches ▸ hb)
    | wake _ htakes => exact h.batches b (htakes.same.batches ▸ hb)
    | join _ htakes => exact h.batches b (htakes.same.batches ▸ hb)
    | defer hbefore htakes _ =>
      rcases List.mem_append.mp hb with hb | hb
      · exact h.batches b (htakes.same.batches ▸ hb)
      · exact List.mem_singleton.mp hb ▸ h.executed hbefore
    | execute hbefore =>
      rcases List.mem_append.mp hb with hb | hb
      · exact h.batches b hb
      · exact List.mem_singleton.mp hb ▸ h.executed hbefore

/-- The pieces that are left to a call fit after it has gone on. -/
theorem Bounded.setProgress (h : Bounded limits s) {i : Nat} {c : EmbedCall V} {progress : Progress V}
    (hprogress : ∀ piece ∈ progress.pieces, FitsLimits limits piece) :
    Bounded limits (s.setProgress i c progress) where
  calls c' hc' := by
    rcases List.mem_or_eq_of_mem_set hc' with hc' | rfl
    · exact h.calls c' hc'
    · exact hprogress
  pending := h.pending
  merging := h.merging
  batches := h.batches

theorem Bounded.send (h : Bounded limits s) {request : Request} (hfits : FitsLimits limits request.values) :
    Bounded limits (s.send request) where
  calls := by
    rw [Executor.send_calls]
    exact h.calls
  pending r hr := by
    rcases List.mem_cons.mp ((Executor.send_pending request).mem_iff.mp hr) with rfl | hr
    · refine ⟨hfits, ?_⟩
      unfold Executor.received
      by_cases hquery : request.priority = .query <;> simp [hquery]
    · exact h.pending r hr
  merging := by
    rw [Executor.send_phase]
    exact h.merging
  batches := by
    rw [Executor.send_batches]
    exact h.batches

theorem Bounded.step {event : Executor.Event} (h : Bounded limits s) (hone : 1 ≤ limits.maxItems)
    (hfree : s.SlotFree) (hstep : s.Steps model limits event s') : Bounded limits s' := by
  cases hstep with
  | call priority values =>
    refine { h with calls := fun c hc => ?_ }
    rcases List.mem_append.mp hc with hc | hc
    · exact h.calls c hc
    · obtain rfl := List.mem_singleton.mp hc
      exact Progress.start_fits hone values
  | submit hcall hprogress =>
    have hpieces := h.calls _ (List.mem_of_getElem? hcall)
    rw [hprogress] at hpieces
    apply Bounded.send _ (hpieces _ List.mem_cons_self)
    apply h.setProgress
    intro piece hpiece
    exact hpieces piece (List.mem_cons_of_mem _ hpiece)
  | @receive _ _ output _ pieces answer hcall hprogress _ =>
    have hpieces := h.calls _ (List.mem_of_getElem? hcall)
    rw [hprogress] at hpieces
    apply h.setProgress
    cases answer with
    | error error => simp [Executor.resume, Progress.pieces]
    | ok embedded =>
      rw [Executor.resume, Progress.pieces_proceed]
      exact hpieces
  | drop => exact h.setProgress (by simp [Progress.pieces])
  | turn hturn => exact h.turn hfree hturn
  | infer hphase =>
    refine { h with pending := fun r hr => ?_, merging := fun _ _ _ _ hphase => by cases hphase }
    rw [Executor.pending, Phase.requests, List.append_nil] at hr
    exact h.pending r (List.mem_append_left _ hr)

theorem reachable_bounded (hone : 1 ≤ limits.maxItems) (h : (executors model limits).Reachable s) :
    Bounded limits s := by
  apply h.invariant
  · rintro _ rfl
    exact ⟨by simp, by simp [Executor.pending, Executor.queued, Phase.requests], by simp, by simp⟩
  · intro s event s' hs hbounded hstep
    exact hbounded.step hone (Executor.reachable_slotFree hs) (Executor.step_cases hstep)

/-- A list of token counts is refused if and only if one of them is too large by itself, and otherwise
    cut into positive counts, in order. No batch of a run exceeds the limits or mixes the queues. -/
theorem batches_within_limits (hitems : 1 ≤ limits.maxItems) :
    (∀ lengths, (∃ error, microbatchLengths lengths limits.maxItems limits.maxPaddedTokens = .error error) ↔
      ∃ tokens ∈ lengths, limits.maxPaddedTokens < tokens) ∧
    (∀ lengths counts, microbatchLengths lengths limits.maxItems limits.maxPaddedTokens = .ok counts →
      (∀ count ∈ counts, 0 < count) ∧ counts.sum = lengths.length ∧
      (counts.splitLengths lengths).flatten = lengths) ∧
    ∀ s, (executors model limits).Reachable s → ∀ b ∈ s.batches, Within limits b := by
  refine ⟨fun _ => microbatchLengths_error, fun lengths counts h => ?_, fun s hs => (reachable_bounded hitems hs).batches⟩
  obtain ⟨pieces, rfl, rfl, hpieces⟩ := microbatchLengths_ok hitems h
  refine ⟨?_, by simp, by rw [splitLengths_flatten]⟩
  intro count hcount
  obtain ⟨piece, hpiece, rfl⟩ := List.mem_map.mp hcount
  exact List.length_pos_of_ne_nil (hpieces piece hpiece).1

/-- A model with one token for each character, whose vectors are the texts themselves. -/
def echoModel : EmbeddingModel Text where
  tokenize text := .ok text.length
  vector text := text
  embedPrepared _ values := .ok (values.map (·.text))
  inOrder _ _ _ h := by
    cases h
    rfl

/-- Limits of three texts and eight padded tokens. -/
def smallLimits : Limits := ⟨8, 3, 8, by decide⟩

/-- Two calls whose requests are merged, and a third that does not fit. -/
def threeCalls : List Executor.Event :=
  [.call .document [['t', 'e', 'a']], .call .memory [['m', 'i', 'l', 'k']], .call .warmup [['i', 'c', 'e']],
    .submit 0, .submit 1, .submit 2, .select, .merge, .merge, .infer (.completed 0)]

theorem batches_within_limits_threeCalls :
    ∃ s, (executors echoModel smallLimits).replay {} threeCalls = some s ∧
      s.batches.map (·.values.length) = [2] ∧ ∀ b ∈ s.batches, Within smallLimits b := by
  obtain ⟨s, hs⟩ : ∃ s, (executors echoModel smallLimits).replay {} threeCalls = some s :=
    Option.isSome_iff_exists.mp (by decide +kernel)
  have hlengths : ∀ s ∈ (executors echoModel smallLimits).replay {} threeCalls,
      s.batches.map (·.values.length) = [2] := by
    decide +kernel
  exact ⟨s, hs, hlengths s hs, (batches_within_limits (by decide)).2.2 s ((Machine.Reachable.start rfl).replay hs)⟩

end Embedding
