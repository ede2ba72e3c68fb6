-- SUMMARY: Each caller gets its own vectors: requests are conserved, replies are counted off right, and the executor comes to rest.
import Supermemory.MemoryEngine.BatchLimits
import Mathlib.Data.List.Nodup

/-!
# Delivery

The texts of one call are spread over several requests, and the requests of several
callers are concatenated for the model. A request is at every moment in exactly one
place: waiting, parked, in the batch, or answered. The vectors of a batch are counted
off by the requests that it was made of, and a caller awaits a reply channel that no
other request has.
-/

namespace Embedding

variable {V : Type*} {model : EmbeddingModel V} {limits : Limits}

/-- The embedded text of a prepared input. -/
def EmbeddingModel.embedText (model : EmbeddingModel V) (value : PreparedEmbeddingInput) : EmbeddedText V :=
  { text := value.text, vector := model.vector value.text }

-- ---------------------------------------------------------------------------
-- The replies to a batch
-- ---------------------------------------------------------------------------

namespace Executor

/-- Counting off gives each request what the model made of its own values. -/
theorem distribute_eq (requests : Requests) :
    distribute requests (requests.flatMap (·.2.values))
        ((requests.flatMap (·.2.values)).map fun value => model.vector value.text) =
      requests.map fun request => (request.2, .ok (request.2.values.map model.embedText)) := by
  induction requests with
  | nil => rfl
  | cons request requests ih =>
    rw [List.flatMap_cons, List.map_append, distribute, List.take_left' rfl, List.drop_left' rfl,
      List.take_left' (by simp), List.drop_left' (by simp), ih, List.map_cons]
    congr 3
    rw [List.zipWith_map_right]
    exact List.zipWith_self

theorem replies_requests (requests : Requests) (inference : Inference) :
    (replies model requests inference).map (·.1) = requests.map (·.2) := by
  cases inference with
  | panicked => simp [replies, failBatch]
  | completed attempt =>
    simp only [replies]
    split
    · rename_i vectors hvectors
      obtain rfl := model.inOrder _ _ _ hvectors
      simp [distribute_eq]
    · simp [failBatch]

theorem replies_ok {requests : Requests} {inference : Inference} {request : Request}
    {embedded : List (EmbeddedText V)} (h : (request, .ok embedded) ∈ replies model requests inference) :
    embedded = request.values.map model.embedText := by
  cases inference with
  | panicked => simp [replies, failBatch] at h
  | completed attempt =>
    simp only [replies] at h
    split at h
    · rename_i vectors hvectors
      obtain rfl := model.inOrder _ _ _ hvectors
      rw [distribute_eq] at h
      obtain ⟨_, _, heq⟩ := List.mem_map.mp h
      cases heq
      rfl
    · simp [failBatch] at h

end Executor

-- ---------------------------------------------------------------------------
-- What a call has and what it waits for
-- ---------------------------------------------------------------------------

/-- What a call has together with what the model makes of the rest is what it asked for. -/
def Owns (model : EmbeddingModel V) (values : List Text) (output : List (EmbeddedText V))
    (rest : List PreparedEmbeddingInput) : Prop :=
  ∃ prepared, values.mapM model.prepare = .ok prepared ∧
    output ++ rest.map model.embedText = prepared.map model.embedText

/-- A call awaits its own request, and keeps what it got in order. -/
def Progress.Correct (model : EmbeddingModel V) (submitted : List Request) (values : List Text) :
    Progress V → Prop
  | submitting output piece pieces => Owns model values output (piece ++ pieces.flatten)
  | awaiting output reply pieces =>
    ∃ request ∈ submitted, request.reply = reply ∧ Owns model values output (request.values ++ pieces.flatten)
  | returned (.ok output) => Owns model values output []
  | returned (.error _) | dropped => True

theorem Progress.Correct.submit {submitted : List Request} {values : List Text} {progress : Progress V}
    (h : progress.Correct model submitted values) (request : Request) :
    progress.Correct model (submitted ++ [request]) values := by
  cases progress with
  | submitting => exact h
  | returned result => cases result <;> exact h
  | dropped => trivial
  | awaiting output reply pieces =>
    obtain ⟨request', hmem, hreply, howns⟩ := h
    exact ⟨request', List.mem_append_left _ hmem, hreply, howns⟩

theorem Owns.proceed {submitted : List Request} {values : List Text} {output : List (EmbeddedText V)}
    {pieces : List (List PreparedEmbeddingInput)} (h : Owns model values output pieces.flatten) :
    (Progress.proceed output pieces).Correct model submitted values := by
  cases pieces with
  | nil => exact h
  | cons piece pieces => exact h

theorem Progress.start_correct (submitted : List Request) (values : List Text) :
    (start model limits values).Correct model submitted values := by
  unfold start
  split
  · trivial
  · rename_i prepared hprepared
    split
    · trivial
    · rename_i counts hcounts
      apply Owns.proceed
      have hsum := microbatchLengths_sum hcounts
      rw [List.length_map] at hsum
      rw [List.flatten_splitLengths _ _ (Nat.le_of_eq hsum.symm)]
      exact ⟨prepared, hprepared, rfl⟩

/-- The reply to its request is what a call was waiting for. -/
theorem Owns.resume {submitted : List Request} {values : List Text} {output : List (EmbeddedText V)}
    {request : Request} {pieces : List (List PreparedEmbeddingInput)} {answer : Reply V}
    (h : Owns model values output (request.values ++ pieces.flatten))
    (hanswer : ∀ embedded, answer = .ok embedded → embedded = request.values.map model.embedText) :
    (Executor.resume output pieces answer).Correct model submitted values := by
  cases answer with
  | error error => trivial
  | ok embedded =>
    obtain rfl := hanswer embedded rfl
    apply Owns.proceed
    obtain ⟨prepared, hprepared, heq⟩ := h
    refine ⟨prepared, hprepared, ?_⟩
    rw [← heq, List.map_append, List.append_assoc]

-- ---------------------------------------------------------------------------
-- The invariant
-- ---------------------------------------------------------------------------

variable {s s' : Executor V}

/-- No request is lost or answered twice, and every reply is that of its own request. -/
structure Delivered (model : EmbeddingModel V) (s : Executor V) : Prop where
  channels : s.submitted.map (·.reply) = List.range s.submitted.length
  conserved : (s.pending.map (·.2) ++ s.answers.map (·.1)).Perm s.submitted
  answered : ∀ request embedded, (request, .ok embedded) ∈ s.answers →
    embedded = request.values.map model.embedText
  calls : ∀ c ∈ s.calls, c.progress.Correct model s.submitted c.values

theorem Delivered.nodup (h : Delivered model s) : (s.submitted.map (·.reply)).Nodup := by
  rw [h.channels]
  exact List.nodup_range

theorem Delivered.request_of_reply (h : Delivered model s) {request request' : Request}
    (hmem : request ∈ s.submitted) (hmem' : request' ∈ s.submitted) (heq : request.reply = request'.reply) :
    request = request' :=
  List.inj_on_of_nodup_map h.nodup hmem hmem' heq

theorem Delivered.answer_submitted (h : Delivered model s) {answer : Request × Reply V}
    (hanswer : answer ∈ s.answers) : answer.1 ∈ s.submitted := by
  apply h.conserved.mem_iff.mp
  exact List.mem_append_right _ (List.mem_map_of_mem hanswer)

/-- What a call gets from its reply channel is the reply to its own request. -/
theorem Delivered.answer (h : Delivered model s) {request : Request} {answer : Reply V}
    (hmem : request ∈ s.submitted) (hanswer : s.answer request.reply = some answer) :
    (request, answer) ∈ s.answers := by
  obtain ⟨⟨request', answer'⟩, hfind, rfl⟩ := Option.map_eq_some_iff.mp hanswer
  have hfound := List.mem_of_find?_eq_some hfind
  have hreply : request'.reply = request.reply := by simpa using List.find?_some hfind
  obtain rfl := h.request_of_reply (h.answer_submitted hfound) hmem hreply
  exact hfound

theorem Delivered.setProgress (h : Delivered model s) {i : Nat} {c : EmbedCall V} {progress : Progress V}
    (hprogress : progress.Correct model s.submitted c.values) : Delivered model (s.setProgress i c progress) where
  channels := h.channels
  conserved := h.conserved
  answered := h.answered
  calls c' hc' := by
    rcases List.mem_or_eq_of_mem_set hc' with hc' | rfl
    · exact h.calls c' hc'
    · exact hprogress

/-- A request with a reply channel of its own is submitted. -/
theorem Delivered.submit (h : Delivered model s) {i : Nat} {c : EmbedCall V} {output : List (EmbeddedText V)}
    {piece : List PreparedEmbeddingInput} {pieces : List (List PreparedEmbeddingInput)}
    (howns : Owns model c.values output (piece ++ pieces.flatten)) :
    Delivered model ((s.setProgress i c (.awaiting output s.submitted.length pieces)).send
      { reply := s.submitted.length, priority := c.priority, values := piece }) where
  channels := by
    rw [Executor.send_submitted, List.map_append, List.length_append, List.length_singleton, List.range_succ]
    exact congrArg (· ++ _) h.channels
  conserved := by
    rw [Executor.send_submitted, Executor.send_answers]
    have hpending := (Executor.send_pending (s := s.setProgress i c (.awaiting output s.submitted.length pieces))
      { reply := s.submitted.length, priority := c.priority, values := piece }).map (·.2)
    apply (hpending.append_right _).trans
    rw [List.map_cons, List.cons_append]
    apply List.Perm.trans _ (List.perm_append_singleton _ _).symm
    exact h.conserved.cons _
  answered := by
    rw [Executor.send_answers]
    exact h.answered
  calls c' hc' := by
    rw [Executor.send_calls] at hc'
    rw [Executor.send_submitted]
    rcases List.mem_or_eq_of_mem_set hc' with hc' | rfl
    · exact (h.calls c' hc').submit _
    · exact ⟨_, List.mem_append_right _ List.mem_cons_self, rfl, howns⟩

theorem Delivered.turn {event : Executor.Event} (h : Delivered model s) (hfree : s.SlotFree)
    (hturn : s.Turn limits event s') : Delivered model s' where
  channels := by
    rw [hturn.same.submitted]
    exact h.channels
  conserved := by
    rw [hturn.same.submitted, hturn.same.answers]
    exact (((hturn.pending hfree).map _).append_right _).trans h.conserved
  answered := by
    rw [hturn.same.answers]
    exact h.answered
  calls := by
    rw [hturn.same.submitted, hturn.same.calls]
    exact h.calls

/-- The batch leaves the scheduler with one reply for each of its requests. -/
theorem Delivered.infer (h : Delivered model s) {priority : EmbeddingPriority} {requests : Requests}
    {inference : Executor.Inference} (hphase : s.phase = .inferring priority requests) :
    Delivered model
      { s with phase := .selecting, answers := s.answers ++ Executor.replies model requests inference } where
  channels := h.channels
  conserved := by
    have hconserved := h.conserved
    rw [Executor.pending, hphase, Phase.requests, List.map_append, List.append_assoc] at hconserved
    rw [Executor.pending, Phase.requests, List.append_nil, List.map_append, Executor.replies_requests]
    exact (List.perm_append_comm.append_left _).trans hconserved
  answered request embedded hmem := by
    rcases List.mem_append.mp hmem with hmem | hmem
    · exact h.answered request embedded hmem
    · exact Executor.replies_ok hmem
  calls := h.calls

theorem Delivered.step {event : Executor.Event} (h : Delivered model s) (hfree : s.SlotFree)
    (hstep : s.Steps model limits event s') : Delivered model s' := by
  cases hstep with
  | call priority values =>
    refine { h with calls := fun c hc => ?_ }
    rcases List.mem_append.mp hc with hc | hc
    · exact h.calls c hc
    · obtain rfl := List.mem_singleton.mp hc
      exact Progress.start_correct s.submitted values
  | submit hcall hprogress =>
    have hcorrect := h.calls _ (List.mem_of_getElem? hcall)
    rw [hprogress] at hcorrect
    exact h.submit hcorrect
  | receive hcall hprogress hanswer =>
    have hcorrect := h.calls _ (List.mem_of_getElem? hcall)
    rw [hprogress] at hcorrect
    obtain ⟨request, hmem, rfl, howns⟩ := hcorrect
    apply h.setProgress
    apply howns.resume
    rintro embedded rfl
    exact h.answered request embedded (h.answer hmem hanswer)
  | drop => exact h.setProgress trivial
  | turn hturn => exact h.turn hfree hturn
  | infer hphase => exact h.infer hphase

theorem reachable_delivered (h : (executors model limits).Reachable s) : Delivered model s := by
  apply h.invariant
  · rintro _ rfl
    exact ⟨rfl, .refl _, by simp, by simp⟩
  · intro s event s' hs hdelivered hstep
    exact hdelivered.step (Executor.reachable_slotFree hs) (Executor.step_cases hstep)

-- ---------------------------------------------------------------------------
-- Coming to rest
-- ---------------------------------------------------------------------------

def Phase.rank : Phase → Nat
  | .waiting => 0
  | .selecting => 1
  | .inferring .. => 2
  | .merging .. => 3

def Progress.rank : Progress V → Nat
  | submitting _ _ pieces => 6 * pieces.length + 7
  | awaiting _ _ pieces => 6 * pieces.length + 2
  | returned _ | dropped => 0

/-- How many steps the executor can take without a new call, at most. A request takes a turn of each
    loop and an inference, and a caller two steps for each piece. -/
def Executor.rank (s : Executor V) : Nat :=
  4 * s.queued.length + s.phase.rank + (s.calls.map (·.progress.rank)).sum

theorem sum_set_lt {c : EmbedCall V} (c' : EmbedCall V) {n : Nat} (hlt : c'.progress.rank + n < c.progress.rank)
    {calls : List (EmbedCall V)} {i : Nat} (h : calls[i]? = some c) :
    ((calls.set i c').map (·.progress.rank)).sum + n < (calls.map (·.progress.rank)).sum := by
  induction calls generalizing i with
  | nil => cases h
  | cons first rest ih =>
    cases i with
    | zero =>
      obtain rfl : first = c := by simpa using h
      simp only [List.set_cons_zero, List.map_cons, List.sum_cons]
      omega
    | succ i =>
      have hrest := ih (by simpa using h)
      simp only [List.set_cons_succ, List.map_cons, List.sum_cons]
      omega

theorem Progress.rank_proceed {output : List (EmbeddedText V)} {pieces : List (List PreparedEmbeddingInput)} :
    (proceed output pieces).rank < 6 * pieces.length + 2 := by
  cases pieces with
  | nil => exact Nat.zero_lt_succ _
  | cons piece pieces =>
    simp only [proceed, rank, List.length_cons]
    omega

/-- A turn of the scheduler lowers the rank: a request that is parked ends the batch. -/
theorem Executor.Turn.rank {event : Executor.Event} (h : s.Turn limits event s') (hfree : s.SlotFree) :
    s'.rank < s.rank := by
  have hcalls := h.same.calls
  unfold Executor.rank
  rw [hcalls]
  apply Nat.add_lt_add_right
  cases h with
  | idle hphase _ _ _ =>
    rw [hphase]
    exact Nat.lt_succ_self _
  | @start next t hphase htakes _ _ =>
    have hlength : t.queued.length + 1 = s.queued.length := htakes.queued_length
    change 4 * t.queued.length + 3 < 4 * s.queued.length + _
    omega
  | @wake next t hphase htakes _ =>
    have hlength := htakes.queued_length
    change 4 * t.queued.length + 3 < 4 * s.queued.length + _
    omega
  | @join _ _ _ _ next t hphase htakes _ _ _ _ =>
    have hlength := htakes.queued_length
    change 4 * t.queued.length + 3 < 4 * s.queued.length + _
    omega
  | @defer _ _ _ _ next t hphase htakes hslot =>
    have hlength := htakes.queued_length
    change 4 * ({ t with deferred := some next } : Executor V).queued.length + 2 < 4 * s.queued.length + _
    rw [Executor.queued_defer (hslot.trans (hfree.of_merging hphase)), hphase, ← hlength, List.length_append]
    exact Nat.lt_succ_self _
  | execute hphase =>
    rw [hphase]
    exact Nat.lt_succ_self _

/-- A step that a task takes on its own: neither a new call nor the end of one from outside. -/
def Executor.Event.IsOwn : Executor.Event → Prop
  | .call .. | .drop _ => False
  | .submit _ | .receive _ | .select | .wake | .merge | .infer _ => True

def Executor.Event.IsCall : Executor.Event → Prop
  | .call .. => True
  | _ => False

theorem Executor.Steps.rank {event : Executor.Event} (h : s.Steps model limits event s') (hfree : s.SlotFree)
    (hnew : ¬ event.IsCall) : s'.rank < s.rank := by
  cases h with
  | call => exact absurd trivial hnew
  | turn h => exact h.rank hfree
  | infer hphase =>
    unfold Executor.rank
    apply Nat.add_lt_add_right
    apply Nat.add_lt_add_left
    rw [hphase]
    exact Nat.lt_succ_self 1
  | @submit i c output piece pieces hcall hprogress =>
    have hlower : (Progress.awaiting output s.submitted.length pieces).rank + 4 < c.progress.rank := by
      rw [hprogress, Progress.rank, Progress.rank]
      omega
    have hcalls := sum_set_lt { c with progress := .awaiting output s.submitted.length pieces } hlower hcall
    have hlength := (Executor.send_queued (s := s.setProgress i c (.awaiting output s.submitted.length pieces))
      { reply := s.submitted.length, priority := c.priority, values := piece }).length_eq
    rw [List.length_cons] at hlength
    unfold Executor.rank
    rw [Executor.send_phase, Executor.send_calls, hlength]
    change 4 * (s.queued.length + 1) + s.phase.rank + _ < _
    simp only [Executor.setProgress]
    omega
  | @receive _ c output reply pieces answer hcall hprogress _ =>
    unfold Executor.rank
    apply Nat.add_lt_add_left
    apply sum_set_lt _ (n := 0) _ hcall
    rw [hprogress]
    cases answer with
    | error error => exact Nat.zero_lt_succ _
    | ok embedded => exact Progress.rank_proceed
  | drop hcall hprogress =>
    unfold Executor.rank
    apply Nat.add_lt_add_left
    apply sum_set_lt _ (n := 0) _ hcall
    rcases hprogress with ⟨_, _, _, hprogress⟩ | ⟨_, _, _, hprogress⟩ <;>
      rw [hprogress] <;> exact Nat.zero_lt_succ _

/-- No task can take a step on its own. -/
def Executor.AtRest (model : EmbeddingModel V) (limits : Limits) (s : Executor V) : Prop :=
  ∀ event : Executor.Event, event.IsOwn → s.step model limits event = none

def Progress.Finished : Progress V → Prop
  | submitting .. | awaiting .. => False
  | returned _ | dropped => True

/-- An executor at rest waits for requests, and there are none. -/
theorem Executor.AtRest.idle (h : s.AtRest model limits) :
    s.phase = .waiting ∧ s.query = [] ∧ s.bulk = [] := by
  cases hphase : s.phase with
  | selecting =>
    have hselect := h .select trivial
    simp [Executor.step, hphase] at hselect
  | merging =>
    have hmerge := h .merge trivial
    simp [Executor.step, hphase] at hmerge
  | inferring =>
    have hinfer := h (.infer .panicked) trivial
    simp [Executor.step, hphase] at hinfer
  | waiting =>
    have hwake := h .wake trivial
    cases hreceived : (s.receiveQuery <|> s.receiveBulk) with
    | none => exact ⟨rfl, Executor.received_none.mp hreceived⟩
    | some received => simp [Executor.step, hphase, hreceived] at hwake

theorem Delivered.at_rest (h : Delivered model s) (hfree : s.SlotFree) (hrest : s.AtRest model limits) :
    (s.answers.map (·.1)).Perm s.submitted := by
  obtain ⟨hphase, hquery, hbulk⟩ := hrest.idle
  have hdeferred : s.deferred = none := by rwa [Executor.SlotFree, hphase] at hfree
  have hnone : s.pending = [] := by
    simp [Executor.pending, Executor.queued, hquery, hbulk, hdeferred, hphase, Phase.requests]
  have hconserved := h.conserved
  rwa [hnone, List.map_nil, List.nil_append] at hconserved

/-- A call that can take no step has come to its end. -/
theorem Delivered.finished (h : Delivered model s) (hfree : s.SlotFree) (hrest : s.AtRest model limits)
    {c : EmbedCall V} (hc : c ∈ s.calls) : c.progress.Finished := by
  obtain ⟨_, hquery, hbulk⟩ := hrest.idle
  obtain ⟨i, hcall⟩ := List.mem_iff_getElem?.mp hc
  cases hprogress : c.progress with
  | returned => trivial
  | dropped => trivial
  | submitting output piece pieces =>
    have hroom : s.HasRoom limits c.priority := by
      unfold Executor.HasRoom
      split
      · rw [hquery]
        exact limits.capacity_pos
      · rw [hbulk]
        exact limits.capacity_pos
    have hsubmit := hrest (.submit i) trivial
    simp [Executor.step, hcall, hprogress, hroom] at hsubmit
  | awaiting output reply pieces =>
    have hcorrect := h.calls c hc
    rw [hprogress] at hcorrect
    obtain ⟨request, hmem, rfl, _⟩ := hcorrect
    obtain ⟨⟨request', answer⟩, hanswer, rfl⟩ :=
      List.mem_map.mp ((h.at_rest hfree hrest).mem_iff.mpr hmem)
    have hsome : (s.answer request'.reply).isSome := by
      rw [Executor.answer, Option.isSome_map, List.find?_isSome]
      exact ⟨_, hanswer, by simp⟩
    obtain ⟨answer', hanswer'⟩ := Option.isSome_iff_exists.mp hsome
    have hreceive := hrest (.receive i) trivial
    simp [Executor.step, hcall, hprogress, hanswer'] at hreceive

-- ---------------------------------------------------------------------------
-- Every run
-- ---------------------------------------------------------------------------

/-- One embedded text for each input, in order: the text that was prepared from it, with its vector. -/
def OwnVectors (model : EmbeddingModel V) (values : List Text) (output : List (EmbeddedText V)) : Prop :=
  List.Forall₂ (fun value embedded => ∃ prepared, model.prepare value = .ok prepared ∧
    embedded = { text := prepared.text, vector := model.vector prepared.text }) values output

theorem ownVectors_of_prepared {values : List Text} {prepared : List PreparedEmbeddingInput}
    (h : values.mapM model.prepare = .ok prepared) : OwnVectors model values (prepared.map model.embedText) := by
  induction values generalizing prepared with
  | nil =>
    cases h
    exact .nil
  | cons value values ih =>
    rw [List.mapM_cons] at h
    cases hvalue : model.prepare value with
    | error error =>
      rw [hvalue] at h
      cases h
    | ok first =>
      rw [hvalue] at h
      cases hrest : values.mapM model.prepare with
      | error error =>
        simp only [hrest] at h
        cases h
      | ok rest =>
        simp only [hrest] at h
        cases h
        exact .cons ⟨first, hvalue, rfl⟩ (ih hrest)

theorem Owns.ownVectors {values : List Text} {output : List (EmbeddedText V)} (h : Owns model values output []) :
    OwnVectors model values output := by
  obtain ⟨prepared, hprepared, heq⟩ := h
  rw [List.map_nil, List.append_nil] at heq
  rw [heq]
  exact ownVectors_of_prepared hprepared

/-- In every run, a call that returns has one embedded text for each of its inputs, in order, each with
    its own vector. No request is answered twice. Without new calls a run comes to rest, and then every
    submitted request was answered and every call has returned or was dropped. -/
theorem callers_get_own_vectors (h : (executors model limits).Reachable s) :
    (∀ c ∈ s.calls, ∀ output, c.progress = .returned (.ok output) → OwnVectors model c.values output) ∧
    (s.submitted.map (·.reply)).Nodup ∧ (s.answers.map (·.1.reply)).Nodup ∧
    (∀ answer ∈ s.answers, answer.1 ∈ s.submitted) ∧
    ∀ events s', (∀ event ∈ events, ¬ event.IsCall) → (executors model limits).replay s events = some s' →
      events.length ≤ s.rank ∧ (s'.AtRest model limits →
        (s'.answers.map (·.1)).Perm s'.submitted ∧ ∀ c ∈ s'.calls, c.progress.Finished) := by
  have hdelivered := reachable_delivered h
  refine ⟨?_, hdelivered.nodup, ?_, fun _ => hdelivered.answer_submitted, ?_⟩
  · intro c hc output hprogress
    have hcorrect := hdelivered.calls c hc
    rw [hprogress] at hcorrect
    exact hcorrect.ownVectors
  · have hnodup := (hdelivered.conserved.map (·.reply)).nodup_iff.mpr hdelivered.nodup
    simp only [List.map_append, List.map_map] at hnodup
    exact (List.nodup_append.mp hnodup).2.1
  · intro events s' hevents hreplay
    have hreachable := h.replay hreplay
    have hlength := h.replay_length_le (fun event => ¬ event.IsCall) Executor.rank
      (fun _ _ _ hs hnew hstep =>
        (Executor.step_cases hstep).rank (Executor.reachable_slotFree hs) hnew) hevents hreplay
    refine ⟨Nat.le_of_add_right_le hlength, fun hrest => ?_⟩
    have hfree := Executor.reachable_slotFree hreachable
    have hdelivered' := reachable_delivered hreachable
    exact ⟨hdelivered'.at_rest hfree hrest, fun c hc => hdelivered'.finished hfree hrest hc⟩

/-- Two calls are answered from one batch, the third from a batch of its own. -/
def threeReplies : List Executor.Event :=
  threeCalls ++ [.select, .merge, .infer (.completed 0), .receive 2, .receive 0, .receive 1]

theorem callers_get_own_vectors_threeReplies :
    ∃ s, (executors echoModel smallLimits).replay {} threeReplies = some s ∧ s.answers.length = 3 ∧
      ∀ c ∈ s.calls, ∀ output, c.progress = .returned (.ok output) → OwnVectors echoModel c.values output := by
  obtain ⟨s, hs⟩ : ∃ s, (executors echoModel smallLimits).replay {} threeReplies = some s :=
    Option.isSome_iff_exists.mp (by decide +kernel)
  have hlength : ∀ s ∈ (executors echoModel smallLimits).replay {} threeReplies, s.answers.length = 3 := by
    decide +kernel
  exact ⟨s, hs, hlength s hs, (callers_get_own_vectors ((Machine.Reachable.start rfl).replay hs)).1⟩

end Embedding
