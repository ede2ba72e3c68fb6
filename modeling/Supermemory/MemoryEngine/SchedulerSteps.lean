-- SUMMARY: What a step of the embedding executor can do, and the requests that it has and has not answered.
import Supermemory.MemoryEngine.EmbeddingExecutor

/-!
# Steps of the executor

Each turn of the scheduler's loops is described once, by the request that it took and
by the phase that it leaves. A turn takes no request out of the executor and puts none
into it: what is waiting, parked or merged is the same before and after, up to order.
-/

namespace Embedding

namespace Executor

variable {V : Type*} {model : EmbeddingModel V} {limits : Limits} {s s' : Executor V}

/-- The slot of the deferred request is free where a request may be put into it. -/
def SlotFree (s : Executor V) : Prop :=
  match s.phase with
  | .selecting | .inferring .. => True
  | .waiting | .merging .. => s.deferred = none

/-- A request was taken out of a queue or out of the slot. -/
inductive Takes (s : Executor V) : (EmbeddingPriority × Request) × Executor V → Prop where
  | query {request : Request} {rest : List Request} (h : s.query = request :: rest) :
    Takes s ((.query, request), { s with query := rest })
  | bulk {request : Request} {rest : List Request} (h : s.bulk = request :: rest) :
    Takes s ((.document, request), { s with bulk := rest })
  | deferred {next : EmbeddingPriority × Request} (h : s.deferred = some next) :
    Takes s (next, { s with deferred := none })

/-- What the scheduler does in a turn of one of its loops. -/
inductive Turn (limits : Limits) (s : Executor V) : Event → Executor V → Prop where
  | idle (hphase : s.phase = .selecting) (hquery : s.query = []) (hbulk : s.bulk = [])
      (hdeferred : s.deferred = none) :
    Turn limits s .select { s with bulkWaiting := false, phase := .waiting }
  | start {next : EmbeddingPriority × Request} {t : Executor V} (hphase : s.phase = .selecting)
      (htakes : Takes { s with bulkWaiting := !s.bulk.isEmpty } (next, t)) (hslot : t.deferred = none)
      (hburst : next.1 = .query → s.bulk ≠ [] → s.deferred = some next ∨ s.queryBurst < 4) :
    Turn limits s .select (Executor.start (next, t))
  | wake {next : EmbeddingPriority × Request} {t : Executor V} (hphase : s.phase = .waiting)
      (htakes : Takes s (next, t)) (hslot : t.deferred = s.deferred) :
    Turn limits s .wake (Executor.start (next, t))
  | join {priority : EmbeddingPriority} {requests : Requests} {items longest : Nat}
      {next : EmbeddingPriority × Request} {t : Executor V}
      (hphase : s.phase = .merging priority requests items longest) (htakes : Takes s (next, t))
      (hslot : t.deferred = s.deferred) (hclass : next.1 = .query ↔ priority = .query)
      (hitems : items + next.2.values.length ≤ limits.maxItems)
      (hpadded : (items + next.2.values.length) * max longest next.2.maxItemTokens ≤ limits.maxPaddedTokens) :
    Turn limits s .merge { t with
      phase := .merging priority (requests ++ [next]) (items + next.2.values.length)
        (max longest next.2.maxItemTokens) }
  | defer {priority : EmbeddingPriority} {requests : Requests} {items longest : Nat}
      {next : EmbeddingPriority × Request} {t : Executor V}
      (hphase : s.phase = .merging priority requests items longest) (htakes : Takes s (next, t))
      (hslot : t.deferred = s.deferred) :
    Turn limits s .merge ({ t with deferred := some next }.execute priority requests)
  | execute {priority : EmbeddingPriority} {requests : Requests} {items longest : Nat}
      (hphase : s.phase = .merging priority requests items longest) :
    Turn limits s .merge (s.execute priority requests)

theorem receiveQuery_eq {next : EmbeddingPriority × Request} {t : Executor V}
    (h : s.receiveQuery = some (next, t)) :
    Takes s (next, t) ∧ t.deferred = s.deferred ∧ next.1 = .query := by
  unfold receiveQuery at h
  split at h
  · cases h
  · cases h
    exact ⟨.query ‹_›, rfl, rfl⟩

theorem receiveBulk_eq {next : EmbeddingPriority × Request} {t : Executor V}
    (h : s.receiveBulk = some (next, t)) :
    Takes s (next, t) ∧ t.deferred = s.deferred ∧ next.1 = .document := by
  unfold receiveBulk at h
  split at h
  · cases h
  · cases h
    exact ⟨.bulk ‹_›, rfl, rfl⟩

theorem receiveQuery_none : s.receiveQuery = none ↔ s.query = [] := by
  unfold receiveQuery
  split <;> simp [*]

theorem receiveBulk_none : s.receiveBulk = none ↔ s.bulk = [] := by
  unfold receiveBulk
  split <;> simp [*]

theorem received_none : (s.receiveQuery <|> s.receiveBulk) = none ↔ s.query = [] ∧ s.bulk = [] := by
  simp [receiveQuery_none, receiveBulk_none]

/-- `select!` takes a request out of one of the queues. -/
theorem received_takes {next : EmbeddingPriority × Request} {t : Executor V}
    (h : (s.receiveQuery <|> s.receiveBulk) = some (next, t)) : Takes s (next, t) ∧ t.deferred = s.deferred := by
  cases hquery : s.receiveQuery with
  | some received =>
    obtain rfl : received = (next, t) := by simpa [hquery] using h
    exact ⟨(receiveQuery_eq hquery).1, (receiveQuery_eq hquery).2.1⟩
  | none =>
    have hbulk : s.receiveBulk = some (next, t) := by simpa [hquery] using h
    exact ⟨(receiveBulk_eq hbulk).1, (receiveBulk_eq hbulk).2.1⟩

/-- A query that is received after four others was parked, or no bulk work is waiting. -/
theorem nextRequest_takes {next : EmbeddingPriority × Request} {t : Executor V}
    (h : s.nextRequest = some (next, t)) : Takes s (next, t) ∧ t.deferred = none ∧
      (next.1 = .query → s.bulk ≠ [] → s.deferred = some next ∨ s.queryBurst < 4) := by
  unfold nextRequest at h
  cases hdeferred : s.deferred with
  | some deferred =>
    rw [hdeferred] at h
    cases h
    exact ⟨.deferred hdeferred, rfl, fun _ _ => .inl rfl⟩
  | none =>
    rw [hdeferred] at h
    dsimp only at h
    split at h
    · cases hbulk : s.receiveBulk with
      | some received =>
        obtain rfl : received = (next, t) := by simpa [hbulk] using h
        obtain ⟨htakes, hslot, hclass⟩ := receiveBulk_eq hbulk
        refine ⟨htakes, hslot.trans hdeferred, fun hquery => ?_⟩
        cases hclass.symm.trans hquery
      | none =>
        have hquery : s.receiveQuery = some (next, t) := by simpa [hbulk] using h
        obtain ⟨htakes, hslot, _⟩ := receiveQuery_eq hquery
        exact ⟨htakes, hslot.trans hdeferred, fun _ hwaiting => absurd (receiveBulk_none.mp hbulk) hwaiting⟩
    · rename_i hburst
      have hreceived : (s.receiveQuery <|> s.receiveBulk) = some (next, t) := h
      obtain ⟨htakes, hslot⟩ := received_takes hreceived
      exact ⟨htakes, hslot.trans hdeferred, fun _ _ => .inr (Nat.lt_of_not_le hburst)⟩

theorem nextRequest_none (h : s.nextRequest = none) : s.query = [] ∧ s.bulk = [] ∧ s.deferred = none := by
  unfold nextRequest at h
  split at h
  · cases h
  · simp [receiveQuery_none, receiveBulk_none] at h
    exact ⟨h.2.1, h.2.2, ‹_›⟩

theorem select_turn (h : s.phase = .selecting) : Turn limits s .select s.select := by
  unfold select
  dsimp only
  split
  · rename_i received hnext
    obtain ⟨next, t⟩ := received
    obtain ⟨htakes, hslot, hburst⟩ := nextRequest_takes hnext
    exact .start h htakes hslot hburst
  · rename_i hnext
    obtain ⟨hquery, hbulk, hdeferred⟩ := nextRequest_none hnext
    have hwaiting : (!s.bulk.isEmpty) = false := by simp [show s.bulk = [] from hbulk]
    rw [hwaiting]
    exact .idle h hquery hbulk hdeferred

theorem merge_turn {priority : EmbeddingPriority} {requests : Requests} {items longest : Nat}
    (h : s.phase = .merging priority requests items longest) :
    Turn limits s .merge (s.merge limits priority requests items longest) := by
  unfold merge
  split
  · split
    · exact .execute h
    · rename_i next t hreceived
      have htakes : Takes s (next, t) ∧ t.deferred = s.deferred ∧ (next.1 = .query ↔ priority = .query) := by
        split at hreceived
        · rename_i hquery
          obtain ⟨htakes, hslot, hclass⟩ := receiveQuery_eq hreceived
          exact ⟨htakes, hslot, by simp [hquery, hclass]⟩
        · rename_i hbulk
          obtain ⟨htakes, hslot, hclass⟩ := receiveBulk_eq hreceived
          exact ⟨htakes, hslot, by simp [hbulk, hclass]⟩
      obtain ⟨htakes, hslot, hclass⟩ := htakes
      dsimp only
      split
      · exact .defer h htakes hslot
      · rename_i hfits
        obtain ⟨hitems, hpadded⟩ := not_or.mp hfits
        exact .join h htakes hslot hclass (Nat.le_of_not_lt hitems) (Nat.le_of_not_lt hpadded)
  · exact .execute h

/-- What a step can do. -/
inductive Steps (model : EmbeddingModel V) (limits : Limits) (s : Executor V) : Event → Executor V → Prop where
  | call (priority : EmbeddingPriority) (values : List Text) :
    Steps model limits s (.call priority values)
      { s with calls := s.calls ++ [{ priority, values, progress := .start model limits values }] }
  | submit {i : Nat} {c : EmbedCall V} {output : List (EmbeddedText V)} {piece : List PreparedEmbeddingInput}
      {pieces : List (List PreparedEmbeddingInput)} (hcall : s.calls[i]? = some c)
      (hprogress : c.progress = .submitting output piece pieces) :
    Steps model limits s (.submit i) ((s.setProgress i c (.awaiting output s.submitted.length pieces)).send
      { reply := s.submitted.length, priority := c.priority, values := piece })
  | receive {i : Nat} {c : EmbedCall V} {output : List (EmbeddedText V)} {reply : Nat}
      {pieces : List (List PreparedEmbeddingInput)} {answer : Reply V} (hcall : s.calls[i]? = some c)
      (hprogress : c.progress = .awaiting output reply pieces) (hanswer : s.answer reply = some answer) :
    Steps model limits s (.receive i) (s.setProgress i c (resume output pieces answer))
  | drop {i : Nat} {c : EmbedCall V} (hcall : s.calls[i]? = some c)
      (hprogress : (∃ output piece pieces, c.progress = .submitting output piece pieces) ∨
        ∃ output reply pieces, c.progress = .awaiting output reply pieces) :
    Steps model limits s (.drop i) (s.setProgress i c .dropped)
  | turn {event : Event} {s' : Executor V} (h : Turn limits s event s') : Steps model limits s event s'
  | infer {priority : EmbeddingPriority} {requests : Requests} {inference : Inference}
      (hphase : s.phase = .inferring priority requests) :
    Steps model limits s (.infer inference)
      { s with phase := .selecting, answers := s.answers ++ replies model requests inference }

theorem step_cases {event : Event} (h : s.step model limits event = some s') :
    Steps model limits s event s' := by
  cases event with
  | call priority values =>
    cases h
    exact .call priority values
  | submit i =>
    obtain ⟨c, hcall, h⟩ := Option.bind_eq_some_iff.mp h
    split at h
    · rename_i hprogress
      split at h
      · cases h
        exact .submit hcall hprogress
      · cases h
    · cases h
  | receive i =>
    obtain ⟨c, hcall, h⟩ := Option.bind_eq_some_iff.mp h
    split at h
    · rename_i hprogress
      obtain ⟨answer, hanswer, h⟩ := Option.bind_eq_some_iff.mp h
      cases h
      exact .receive hcall hprogress hanswer
    · cases h
  | drop i =>
    obtain ⟨c, hcall, h⟩ := Option.bind_eq_some_iff.mp h
    split at h
    · cases h
      exact .drop hcall (.inl ⟨_, _, _, ‹_›⟩)
    · cases h
      exact .drop hcall (.inr ⟨_, _, _, ‹_›⟩)
    · cases h
  | select =>
    obtain ⟨hphase, h⟩ := Option.ite_none_right_eq_some.mp h
    cases h
    exact .turn (select_turn hphase)
  | wake =>
    obtain ⟨hphase, h⟩ := Option.ite_none_right_eq_some.mp h
    obtain ⟨⟨next, t⟩, hreceived, h⟩ := Option.bind_eq_some_iff.mp h
    cases h
    obtain ⟨htakes, hslot⟩ := received_takes hreceived
    exact .turn (.wake hphase htakes hslot)
  | merge =>
    simp only [step] at h
    split at h
    · cases h
      exact .turn (merge_turn ‹_›)
    · cases h
  | infer inference =>
    simp only [step] at h
    split at h
    · cases h
      exact .infer ‹_›
    · cases h

-- ---------------------------------------------------------------------------
-- Requests on their way
-- ---------------------------------------------------------------------------

section Pending

variable {next : EmbeddingPriority × Request} {t : Executor V}

/-- The calls, what they submitted and what was answered stay the same. -/
structure SameCallers (s t : Executor V) : Prop where
  calls : t.calls = s.calls
  answers : t.answers = s.answers
  submitted : t.submitted = s.submitted

/-- Everything but the queues and the slot stays the same. -/
structure SameScheduler (s t : Executor V) : Prop extends SameCallers s t where
  phase : t.phase = s.phase
  batches : t.batches = s.batches
  queryBurst : t.queryBurst = s.queryBurst
  bulkWaiting : t.bulkWaiting = s.bulkWaiting

theorem Takes.same (h : Takes s (next, t)) : SameScheduler s t := by
  cases h with
  | query => exact ⟨⟨rfl, rfl, rfl⟩, rfl, rfl, rfl, rfl⟩
  | bulk => exact ⟨⟨rfl, rfl, rfl⟩, rfl, rfl, rfl, rfl⟩
  | deferred => exact ⟨⟨rfl, rfl, rfl⟩, rfl, rfl, rfl, rfl⟩

/-- The requests that wait or are parked, without the batch of the scheduler. -/
def queued (s : Executor V) : Requests :=
  s.query.map (.query, ·) ++ s.bulk.map (.document, ·) ++ s.deferred.toList

/-- The requests that were submitted and not answered, each with the class it is received with. -/
def pending (s : Executor V) : Requests := s.queued ++ s.phase.requests

theorem Takes.queued (h : Takes s (next, t)) : (next :: t.queued).Perm s.queued := by
  cases h with
  | query h => simp [Executor.queued, h]
  | bulk h =>
    simp only [Executor.queued, h, List.map_cons, List.append_assoc, List.cons_append]
    exact List.perm_middle.symm
  | deferred h =>
    simp only [Executor.queued, h, Option.toList_none, Option.toList_some, List.append_nil]
    exact (List.perm_append_singleton _ _).symm

theorem Takes.queued_length (h : Takes s (next, t)) : t.queued.length + 1 = s.queued.length := h.queued.length_eq

/-- Taking a request and adding it to the batch moves it from one side to the other. -/
theorem Takes.moves (h : Takes s (next, t)) (requests : Requests) :
    (t.queued ++ (requests ++ [next])).Perm (s.queued ++ requests) := by
  rw [← List.append_assoc]
  apply (List.perm_append_singleton next _).trans
  exact h.queued.append_right requests

theorem SlotFree.of_merging {priority : EmbeddingPriority} {requests : Requests} {items longest : Nat}
    (h : s.SlotFree) (hphase : s.phase = .merging priority requests items longest) : s.deferred = none := by
  rwa [SlotFree, hphase] at h

theorem queued_defer (h : t.deferred = none) :
    ({ t with deferred := some next } : Executor V).queued = t.queued ++ [next] := by
  simp [queued, h]

variable {event : Event}

/-- A turn neither loses a request nor makes one up. -/
theorem Turn.pending (h : Turn limits s event s') (hfree : s.SlotFree) : s'.pending.Perm s.pending := by
  cases h with
  | idle hphase _ _ _ =>
    rw [Executor.pending, Executor.pending, hphase]
    exact .refl _
  | start hphase htakes _ _ =>
    rw [Executor.pending, Executor.pending, hphase]
    exact htakes.moves []
  | wake hphase htakes _ =>
    rw [Executor.pending, Executor.pending, hphase]
    exact htakes.moves []
  | @join _ requests _ _ _ _ hphase htakes _ _ _ _ =>
    rw [Executor.pending, Executor.pending, hphase]
    exact htakes.moves requests
  | @defer _ requests _ _ next t hphase htakes hslot =>
    have hback : (t.queued ++ [next]).Perm s.queued :=
      (List.perm_append_singleton next _).trans htakes.queued
    rw [← queued_defer (hslot.trans (hfree.of_merging hphase))] at hback
    rw [Executor.pending, Executor.pending, hphase]
    exact hback.append_right requests
  | execute hphase =>
    rw [Executor.pending, Executor.pending, hphase]
    exact .refl _

theorem Turn.same (h : Turn limits s event s') : SameCallers s s' := by
  cases h with
  | idle => exact ⟨rfl, rfl, rfl⟩
  | execute => exact ⟨rfl, rfl, rfl⟩
  | start _ htakes => exact ⟨htakes.same.calls, htakes.same.answers, htakes.same.submitted⟩
  | wake _ htakes => exact ⟨htakes.same.calls, htakes.same.answers, htakes.same.submitted⟩
  | join _ htakes => exact ⟨htakes.same.calls, htakes.same.answers, htakes.same.submitted⟩
  | defer _ htakes => exact ⟨htakes.same.calls, htakes.same.answers, htakes.same.submitted⟩

theorem Turn.slotFree (h : Turn limits s event s') (hfree : s.SlotFree) : s'.SlotFree := by
  cases h with
  | idle _ _ _ hdeferred => exact hdeferred
  | start _ _ hslot => exact hslot
  | wake hphase _ hslot =>
    rw [SlotFree, hphase] at hfree
    exact hslot.trans hfree
  | join hphase _ hslot => exact hslot.trans (hfree.of_merging hphase)
  | defer => trivial
  | execute => trivial

end Pending

-- ---------------------------------------------------------------------------
-- Callers
-- ---------------------------------------------------------------------------

@[simp] theorem send_calls (request : Request) : (s.send request).calls = s.calls := by
  unfold send
  split <;> rfl

@[simp] theorem send_answers (request : Request) : (s.send request).answers = s.answers := by
  unfold send
  split <;> rfl

@[simp] theorem send_submitted (request : Request) :
    (s.send request).submitted = s.submitted ++ [request] := by
  unfold send
  split <;> rfl

@[simp] theorem send_batches (request : Request) : (s.send request).batches = s.batches := by
  unfold send
  split <;> rfl

@[simp] theorem send_queryBurst (request : Request) : (s.send request).queryBurst = s.queryBurst := by
  unfold send
  split <;> rfl

@[simp] theorem send_bulkWaiting (request : Request) : (s.send request).bulkWaiting = s.bulkWaiting := by
  unfold send
  split <;> rfl

@[simp] theorem send_phase (request : Request) : (s.send request).phase = s.phase := by
  unfold send
  split <;> rfl

@[simp] theorem send_deferred (request : Request) : (s.send request).deferred = s.deferred := by
  unfold send
  split <;> rfl

/-- The class that a request is received with. -/
def received (request : Request) : EmbeddingPriority × Request :=
  (if request.priority = .query then .query else .document, request)

theorem send_queued (request : Request) : (s.send request).queued.Perm (received request :: s.queued) := by
  unfold send received
  by_cases hquery : request.priority = .query
  · rw [if_pos hquery, if_pos hquery]
    simp only [queued, List.map_append, List.append_assoc, List.map_cons, List.map_nil, List.singleton_append]
    exact List.perm_middle
  · rw [if_neg hquery, if_neg hquery]
    simp only [queued, List.map_append, List.append_assoc, List.map_cons, List.map_nil, List.singleton_append]
    rw [← List.append_assoc, ← List.append_assoc]
    exact List.perm_middle

theorem send_pending (request : Request) :
    (s.send request).pending.Perm (received request :: s.pending) := by
  rw [pending, send_phase]
  exact (send_queued request).append_right _

theorem Steps.slotFree {event : Event} (h : Steps model limits s event s') (hfree : s.SlotFree) : s'.SlotFree := by
  cases h with
  | call => exact hfree
  | submit =>
    rw [SlotFree, send_phase, send_deferred]
    exact hfree
  | receive => exact hfree
  | drop => exact hfree
  | turn h => exact h.slotFree hfree
  | infer => trivial

theorem reachable_slotFree (h : (executors model limits).Reachable s) : s.SlotFree := by
  apply h.invariant
  · rintro _ rfl
    trivial
  · intro s event s' _ hfree hstep
    exact (step_cases hstep).slotFree hfree

end Executor

end Embedding
