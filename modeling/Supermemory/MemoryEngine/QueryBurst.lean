-- SUMMARY: When queries starve indexing: a parked query is served without the burst test, and otherwise at most four in a row.
import Supermemory.MemoryEngine.BatchLimits
import Mathlib.Data.List.Infix

/-!
# Bursts of queries

The scheduler counts the query batches that it has executed in a row, and after four
of them takes a bulk request first. A request that was parked because it did not fit is
taken before that test. Where no query is taken past the test, no five batches in a row
are queries while bulk work waits.
-/

namespace Embedding

/-- A batch of queries whose iteration started while bulk work was waiting. -/
def Batch.Overtakes (b : Batch) : Prop := b.priority = .query ∧ b.bulkWaiting = true

/-- Five batches in a row overtake the bulk work. -/
def Starved (batches : List Batch) : Prop :=
  ∃ five, five <:+: batches ∧ five.length = 5 ∧ ∀ b ∈ five, b.Overtakes

/-- The top of the loop takes a parked query, after four query batches and with bulk work waiting. -/
def Executor.Bypasses {V : Type*} (s : Executor V) : Executor.Event → Prop
  | .select => s.deferred.map (·.1) = some .query ∧ 4 ≤ s.queryBurst ∧ s.bulk ≠ []
  | _ => False

instance {V : Type*} (s : Executor V) (event : Executor.Event) : Decidable (s.Bypasses event) := by
  cases event <;> unfold Executor.Bypasses <;> infer_instance

/-- The executor in runs that take no parked query past the burst test. -/
def fairExecutors {V : Type*} (model : EmbeddingModel V) (limits : Limits) :
    Machine (Executor V) Executor.Event :=
  (executors model limits).restrict fun s event => ¬ s.Bypasses event

-- ---------------------------------------------------------------------------
-- Query batches in a row
-- ---------------------------------------------------------------------------

/-- How many batches at the end are query batches. -/
def burst (batches : List Batch) : Nat :=
  batches.foldl (fun n b => if b.priority = .query then n + 1 else 0) 0

theorem burst_concat (batches : List Batch) (b : Batch) :
    burst (batches ++ [b]) = if b.priority = .query then burst batches + 1 else 0 := by
  simp [burst]

theorem burst_append {queries : List Batch} (h : ∀ b ∈ queries, b.priority = .query) (before : List Batch) :
    burst (before ++ queries) = burst before + queries.length := by
  induction queries generalizing before with
  | nil => simp
  | cons b queries ih =>
    rw [List.append_cons, ih (fun b' hb' => h b' (List.mem_cons_of_mem _ hb')), burst_concat,
      if_pos (h b List.mem_cons_self), List.length_cons, Nat.add_assoc, Nat.add_comm 1]

/-- Where each batch that overtakes is among the first four of its burst, no five in a row do. -/
theorem not_starved {batches : List Batch}
    (h : ∀ before b, before ++ [b] <+: batches → b.Overtakes → burst (before ++ [b]) ≤ 4) :
    ¬ Starved batches := by
  rintro ⟨five, ⟨before, after, hwithin⟩, hlength, hovertake⟩
  rcases List.eq_nil_or_concat five with rfl | ⟨four, last, rfl⟩
  · cases hlength
  · rw [List.concat_eq_append] at hwithin hlength hovertake
    have hbegins : (before ++ four) ++ [last] <+: batches := ⟨after, by rw [← hwithin]; simp⟩
    have hfour := h _ _ hbegins (hovertake last (by simp))
    have hfive := burst_append (fun b hb => (hovertake b hb).1) before
    rw [← List.append_assoc] at hfive
    omega

-- ---------------------------------------------------------------------------
-- The invariant
-- ---------------------------------------------------------------------------

variable {V : Type*} {model : EmbeddingModel V} {limits : Limits} {s s' : Executor V}

/-- The query batches in a row, with the one that is being merged. -/
def Executor.currentBurst (s : Executor V) : Nat :=
  match s.phase with
  | .merging priority .. => if priority = .query then burst s.batches + 1 else 0
  | .selecting | .waiting | .inferring .. => burst s.batches

/-- The counter is right, and a batch that overtakes is among the first four of its burst. -/
structure Served (s : Executor V) : Prop where
  counter : s.queryBurst = s.currentBurst
  waiting : s.phase = .waiting → s.bulkWaiting = false
  merging : ∀ requests items longest, s.phase = .merging .query requests items longest →
    s.bulkWaiting = true → s.queryBurst ≤ 4
  batches : ∀ before b, before ++ [b] <+: s.batches → b.Overtakes → burst (before ++ [b]) ≤ 4

/-- The batch that was merged is handed to the model. -/
theorem Served.execute (h : Served s) {priority : EmbeddingPriority} {requests : Requests} {items longest : Nat}
    (hphase : s.phase = .merging priority requests items longest) : Served (s.execute priority requests) := by
  have hcounter : s.queryBurst = if priority = .query then burst s.batches + 1 else 0 := by
    have hcounter := h.counter
    rwa [Executor.currentBurst, hphase] at hcounter
  exact {
    counter := hcounter.trans (burst_concat s.batches { priority, requests, bulkWaiting := s.bulkWaiting }).symm
    waiting := fun hwaiting => by cases hwaiting
    merging := fun _ _ _ hmerging => by cases hmerging
    batches := by
      intro before b hbegins hovertakes
      rcases List.prefix_concat_iff.mp hbegins with heq | hbegins
      · obtain ⟨rfl, hb⟩ := List.append_inj' heq rfl
        obtain rfl := List.singleton_inj.mp hb
        obtain ⟨hquery, hwaiting⟩ := hovertakes
        obtain rfl : priority = .query := hquery
        rw [burst_concat, ← hcounter]
        exact h.merging _ _ _ hphase hwaiting
      · exact h.batches before b hbegins hovertakes }

/-- Taking a request changes nothing that the invariant is about. -/
theorem Served.takes {next : EmbeddingPriority × Request} {t : Executor V} (h : Served s)
    (htakes : s.Takes (next, t)) : Served t where
  counter := by
    rw [htakes.same.queryBurst, h.counter, Executor.currentBurst, Executor.currentBurst, htakes.same.phase, htakes.same.batches]
  waiting := by
    rw [htakes.same.phase, htakes.same.bulkWaiting]
    exact h.waiting
  merging := by
    rw [htakes.same.phase, htakes.same.bulkWaiting, htakes.same.queryBurst]
    exact h.merging
  batches := by
    rw [htakes.same.batches]
    exact h.batches

/-- A batch that starts between two others counts them. -/
theorem Served.start {next : EmbeddingPriority × Request} {t : Executor V} (hcounter : t.queryBurst = burst t.batches)
    (hbatches : ∀ before b, before ++ [b] <+: t.batches → b.Overtakes → burst (before ++ [b]) ≤ 4)
    (hfew : next.1 = .query → t.bulkWaiting = true → t.queryBurst < 4) : Served (Executor.start (next, t)) where
  counter := by
    change (if next.1 = .query then t.queryBurst + 1 else 0) = if next.1 = .query then burst t.batches + 1 else 0
    rw [hcounter]
  waiting hwaiting := by cases hwaiting
  merging _ _ _ hmerging hwaiting := by
    have hquery : next.1 = .query := by injection hmerging
    have hburst := hfew hquery hwaiting
    change (if next.1 = .query then t.queryBurst + 1 else 0) ≤ 4
    rw [if_pos hquery]
    exact hburst
  batches := hbatches

theorem Served.turn {event : Executor.Event} (h : Served s) (hturn : s.Turn limits event s')
    (hallowed : ¬ s.Bypasses event) : Served s' := by
  cases hturn with
  | idle hphase =>
    have hcounter := h.counter
    rw [Executor.currentBurst, hphase] at hcounter
    exact {
      counter := hcounter
      waiting := fun _ => rfl
      merging := fun _ _ _ hmerging => by cases hmerging
      batches := h.batches }
  | @start next t hphase htakes hslot hburst =>
    have hcounter := h.counter
    rw [Executor.currentBurst, hphase] at hcounter
    apply Served.start
    · rw [htakes.same.queryBurst, htakes.same.batches]
      exact hcounter
    · rw [htakes.same.batches]
      exact h.batches
    · intro hquery hwaiting
      rw [htakes.same.bulkWaiting] at hwaiting
      rw [htakes.same.queryBurst]
      have hbulk : s.bulk ≠ [] := by simpa using hwaiting
      rcases hburst hquery hbulk with hparked | hfew
      · by_contra hmany
        exact hallowed ⟨by simp [hparked, hquery], Nat.le_of_not_lt hmany, hbulk⟩
      · exact hfew
  | wake hphase htakes _ =>
    have hcounter := h.counter
    rw [Executor.currentBurst, hphase] at hcounter
    apply Served.start
    · rw [htakes.same.queryBurst, htakes.same.batches]
      exact hcounter
    · rw [htakes.same.batches]
      exact h.batches
    · intro _ hwaiting
      rw [htakes.same.bulkWaiting, h.waiting hphase] at hwaiting
      cases hwaiting
  | @join priority _ _ _ next t hphase htakes _ _ _ _ =>
    have ht := h.takes htakes
    have hcounter := ht.counter
    rw [Executor.currentBurst, htakes.same.phase, hphase] at hcounter
    exact {
      counter := hcounter
      waiting := fun hwaiting => by cases hwaiting
      merging := by
        intro requests items longest hmerging hwaiting
        obtain rfl : priority = .query := by
          injection hmerging
        exact ht.merging _ _ _ (htakes.same.phase.trans hphase) hwaiting
      batches := ht.batches }
  | @defer _ _ _ _ next t hphase htakes _ =>
    have ht := h.takes htakes
    have hparked : Served { t with deferred := some next } := { ht with }
    exact hparked.execute (htakes.same.phase.trans hphase)
  | execute hphase => exact h.execute hphase

theorem Served.send (h : Served s) (request : Request) : Served (s.send request) where
  counter := by
    rw [Executor.send_queryBurst, h.counter, Executor.currentBurst, Executor.currentBurst, Executor.send_phase,
      Executor.send_batches]
  waiting := by
    rw [Executor.send_phase, Executor.send_bulkWaiting]
    exact h.waiting
  merging := by
    rw [Executor.send_phase, Executor.send_bulkWaiting, Executor.send_queryBurst]
    exact h.merging
  batches := by
    rw [Executor.send_batches]
    exact h.batches

theorem Served.step {event : Executor.Event} (h : Served s) (hstep : s.Steps model limits event s')
    (hallowed : ¬ s.Bypasses event) : Served s' := by
  cases hstep with
  | call => exact { h with }
  | @submit i c output piece pieces _ _ =>
    have hcall : Served (s.setProgress i c (.awaiting output s.submitted.length pieces)) := { h with }
    exact hcall.send _
  | receive => exact { h with }
  | drop => exact { h with }
  | turn hturn => exact h.turn hturn hallowed
  | infer hphase =>
    have hcounter := h.counter
    rw [Executor.currentBurst, hphase] at hcounter
    exact {
      counter := hcounter
      waiting := fun hwaiting => by cases hwaiting
      merging := fun _ _ _ hmerging => by cases hmerging
      batches := h.batches }

theorem served_of_reachable (h : (fairExecutors model limits).Reachable s) : Served s := by
  apply h.invariant
  · rintro _ rfl
    exact ⟨rfl, by simp, by simp, by simp⟩
  · intro s event s' _ hserved hstep
    obtain ⟨hallowed, hstep⟩ := Machine.restrict_step.mp hstep
    exact hserved.step (Executor.step_cases hstep) hallowed

/-- Where no parked query is taken past the burst test, five batches in a row are never all query
    batches with bulk work waiting. -/
theorem queries_leave_room_for_indexing (h : (fairExecutors model limits).Reachable s) : ¬ Starved s.batches :=
  not_starved (served_of_reachable h).batches

/-- Calls of queries with some texts each, and of one document, and the iterations of the scheduler when no
    two requests fit together. -/
def callsAndIterations (queries texts iterations : Nat) : List Executor.Event :=
  List.replicate queries (.call .query (List.replicate texts ['a'])) ++ [.call .document [['b']]] ++
    (List.range (queries + 1)).map .submit ++
    (List.replicate iterations [.select, .merge, .infer (.completed 0)]).flatten

/-- Five full batches of queries are waiting, and the document is the fifth that is served. -/
theorem queries_leave_room_for_indexing_fullBatches :
    ∃ s, (fairExecutors echoModel smallLimits).replay {} (callsAndIterations 5 3 5) = some s ∧
      s.batches.map (·.priority) = [.query, .query, .query, .query, .document] ∧ ¬ Starved s.batches := by
  obtain ⟨s, hs⟩ : ∃ s, (fairExecutors echoModel smallLimits).replay {} (callsAndIterations 5 3 5) = some s :=
    Option.isSome_iff_exists.mp (by decide +kernel)
  have hbatches : ∀ s ∈ (fairExecutors echoModel smallLimits).replay {} (callsAndIterations 5 3 5),
      s.batches.map (·.priority) = [.query, .query, .query, .query, .document] := by
    decide +kernel
  exact ⟨s, hs, hbatches s hs, queries_leave_room_for_indexing ((Machine.Reachable.start rfl).replay hs)⟩

/-- Queries of two texts, of which a batch of three holds one: the next query is parked each time, and taken
    before the document. -/
theorem queries_starve_indexing :
    ∃ s, (executors echoModel smallLimits).Reachable s ∧ Starved s.batches := by
  obtain ⟨s, hs⟩ : ∃ s, (executors echoModel smallLimits).replay {} (callsAndIterations 6 2 5) = some s :=
    Option.isSome_iff_exists.mp (by decide +kernel)
  have hbatches : ∀ s ∈ (executors echoModel smallLimits).replay {} (callsAndIterations 6 2 5),
      s.batches.length = 5 ∧ ∀ b ∈ s.batches, b.priority = .query ∧ b.bulkWaiting = true := by
    decide +kernel
  obtain ⟨hlength, hovertake⟩ := hbatches s hs
  exact ⟨s, (Machine.Reachable.start rfl).replay hs, s.batches, List.infix_refl _, hlength, hovertake⟩

end Embedding
