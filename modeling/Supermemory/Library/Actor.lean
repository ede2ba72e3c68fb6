-- SUMMARY: A task that owns a state and serves a bounded queue of requests: what it answers is what one caller after the other would be answered.
import Mathlib.Data.List.Basic
import Supermemory.Library.Machine

/-!
# Actors

An actor is a task that owns a state. Callers send requests into a bounded queue, the task takes
them out and serves them one at a time, and each caller waits for its own reply. A caller waits
while the queue is full, may go away at any moment, and learns when the task has stopped.

However the callers and the task interleave, the actor is linearizable: its state and its answers
are those of the served requests one after the other, each caller is answered once and for its
own request, no request is served twice or forgotten, and a request that was answered before
another one was made is served before it.
-/

universe u

variable {σ τ ρ α : Type u}

namespace Actor

/-- A request that was served, with its caller, the time at which it was served, and its answer. -/
structure Entry (τ ρ α : Type u) where
  caller : Nat
  request : ρ
  time : τ
  answer : α
  deriving DecidableEq

/-- What a caller was told, when as many calls had been made: its answer, or that the task has stopped. -/
structure Return (α : Type u) where
  caller : Nat
  calls : Nat
  answer : Option α
  deriving DecidableEq

inductive Event (τ ρ : Type u) where
  /-- A new caller comes with a request. -/
  | call (request : ρ)
  /-- A waiting caller finds room in the queue. -/
  | accept (caller : Nat)
  /-- The task serves the request at the head of the queue. -/
  | serve (time : τ)
  /-- A caller takes its reply. -/
  | reply (caller : Nat)
  /-- A caller learns that the task has stopped. -/
  | refuse (caller : Nat)
  /-- A caller goes away. -/
  | leave (caller : Nat)
  /-- The task stops, and the queue goes with it. -/
  | stop
  deriving DecidableEq

end Actor

open Actor

/-- The task, its queue and its callers. Callers are numbered as they come. -/
structure Actor (σ τ ρ α : Type u) where
  state : σ
  stopped : Bool
  /-- The requests of all callers. -/
  calls : List ρ
  /-- The callers that have not found room yet. -/
  waiting : List (Nat × ρ)
  queue : List (Nat × ρ)
  /-- The replies that wait for their callers. -/
  replies : List (Nat × α)
  /-- The callers that went away. -/
  left : List Nat
  /-- The callers whose requests were dropped with the queue. -/
  dropped : List Nat
  history : List (Entry τ ρ α)
  returned : List (Return α)
  deriving DecidableEq

namespace Actor

variable {serve : τ → ρ → σ → α × σ} {capacity : Nat} {init : σ → Prop} {s s' : Actor σ τ ρ α}

/-- Removes a caller from a list of callers with something. -/
def without {β : Type u} (caller : Nat) (callers : List (Nat × β)) : List (Nat × β) :=
  callers.filter fun c => c.1 ≠ caller

/-- Removes a caller from a list of callers. -/
def remove (caller : Nat) (callers : List Nat) : List Nat := callers.filter (· ≠ caller)

/-- The callers that did not go away. -/
def staying (left callers : List Nat) : List Nat := callers.filter (· ∉ left)

def step (serve : τ → ρ → σ → α × σ) (capacity : Nat) (s : Actor σ τ ρ α) :
    Event τ ρ → Option (Actor σ τ ρ α)
  | .call request =>
    some { s with calls := s.calls ++ [request], waiting := s.waiting ++ [(s.calls.length, request)] }
  | .accept caller =>
    match s.waiting.lookup caller with
    | some request =>
      if s.stopped = false ∧ s.queue.length < capacity then
        some { s with waiting := without caller s.waiting, queue := s.queue ++ [(caller, request)] }
      else none
    | none => none
  | .serve time =>
    match s.queue with
    | (caller, request) :: rest =>
      if s.stopped = false then
        let result := serve time request s.state
        some { s with
          state := result.2
          queue := rest
          replies := if caller ∈ s.left then s.replies else s.replies ++ [(caller, result.1)]
          history := s.history ++ [⟨caller, request, time, result.1⟩] }
      else none
    | [] => none
  | .reply caller =>
    match s.replies.lookup caller with
    | some answer =>
      some { s with
        replies := without caller s.replies
        returned := s.returned ++ [⟨caller, s.calls.length, some answer⟩] }
    | none => none
  | .refuse caller =>
    if s.stopped = true ∧ (caller ∈ s.waiting.map (·.1) ∨ caller ∈ s.dropped) then
      some { s with
        waiting := without caller s.waiting
        dropped := remove caller s.dropped
        returned := s.returned ++ [⟨caller, s.calls.length, none⟩] }
    else none
  | .leave caller =>
    if caller < s.calls.length then
      some { s with
        waiting := without caller s.waiting
        replies := without caller s.replies
        dropped := remove caller s.dropped
        left := caller :: s.left }
    else none
  | .stop =>
    some { s with
      stopped := true
      queue := []
      dropped := s.dropped ++ staying s.left (s.queue.map (·.1)) }

/-- Nobody has come yet. -/
def start (state : σ) : Actor σ τ ρ α :=
  { state, stopped := false, calls := [], waiting := [], queue := [], replies := [], left := [], dropped := [],
    history := [], returned := [] }

/-- The actors that start in some states. -/
def machine (serve : τ → ρ → σ → α × σ) (capacity : Nat) (init : σ → Prop) :
    Machine (Actor σ τ ρ α) (Event τ ρ) where
  init s := ∃ state, init state ∧ s = start state
  step := step serve capacity

-- ---------------------------------------------------------------------------
-- Callers
-- ---------------------------------------------------------------------------

/-- How often a caller is in a list of callers with something. -/
def held {β : Type u} (callers : List (Nat × β)) (caller : Nat) : Nat := (callers.map (·.1)).count caller

section Held

variable {β : Type u} {callers : List (Nat × β)} {caller a : Nat} {b : β}

@[simp] theorem held_nil : held ([] : List (Nat × β)) a = 0 := rfl

@[simp] theorem held_cons : held ((caller, b) :: callers) a = held callers a + if caller = a then 1 else 0 := by
  simp [held, List.count_cons]

@[simp] theorem held_append_single :
    held (callers ++ [(caller, b)]) a = held callers a + if caller = a then 1 else 0 := by
  simp [held, List.count_cons]

theorem held_without : held (without caller callers) a = if a = caller then 0 else held callers a := by
  induction callers with
  | nil => simp [without]
  | cons c rest ih =>
    unfold without at ih ⊢
    by_cases hc : c.1 = caller
    · rw [List.filter_cons_of_neg (by simpa using hc), ih]
      by_cases ha : a = caller
      · simp [ha]
      · simp [held, ha, hc ▸ Ne.symm ha]
    · rw [List.filter_cons_of_pos (by simpa using hc)]
      by_cases ha : a = caller
      · subst ha
        simpa [held, List.count_cons, hc] using ih
      · simpa [held, List.count_cons, ha] using ih

theorem mem_of_lookup (h : callers.lookup caller = some b) : (caller, b) ∈ callers := by
  obtain ⟨_, _, rfl, _⟩ := List.lookup_eq_some_iff.mp h
  exact List.mem_append_right _ List.mem_cons_self

theorem held_pos (h : (caller, b) ∈ callers) : 0 < held callers caller :=
  List.count_pos_iff.mpr (List.mem_map_of_mem h)

end Held

/-- The places where the request of a caller is: with the caller, in the queue, served, or dropped. -/
def places (s : Actor σ τ ρ α) (caller : Nat) : Nat :=
  held s.waiting caller + held s.queue caller + ((s.history.map (·.caller)).count caller + s.dropped.count caller)

/-- The places where a caller that stays is: before the task, before a reply, or done. -/
def stages (s : Actor σ τ ρ α) (caller : Nat) : Nat :=
  held s.waiting caller + held s.queue caller +
    (s.dropped.count caller + (held s.replies caller + (s.returned.map (·.caller)).count caller))

theorem count_remove {callers : List Nat} {caller a : Nat} :
    (remove caller callers).count a = if a = caller then 0 else callers.count a := by
  unfold remove
  by_cases ha : a = caller
  · rw [if_pos ha, List.count_eq_zero]
    intro hmem
    exact absurd ha (by simpa using (List.mem_filter.mp hmem).2)
  · rw [if_neg ha, List.count_filter (by simpa using ha)]

theorem count_staying {left callers : List Nat} {a : Nat} :
    (staying left callers).count a = if a ∈ left then 0 else callers.count a := by
  unfold staying
  by_cases ha : a ∈ left
  · rw [if_pos ha, List.count_eq_zero]
    intro hmem
    exact absurd ha (by simpa using (List.mem_filter.mp hmem).2)
  · rw [if_neg ha, List.count_filter (by simpa using ha)]

/-- What a step other than a new call does to the callers: each stays, moves on, or goes away. -/
structure Moves (s s' : Actor σ τ ρ α) : Prop where
  calls : s'.calls = s.calls
  history : s.history <+: s'.history
  places : ∀ a, s'.places a ≤ s.places a
  stages : ∀ a, s'.stages a ≤ s.stages a
  left : ∀ a ∈ s.left, a ∈ s'.left
  kept : ∀ a, a ∉ s'.left → 0 < s.stages a → 0 < s'.stages a

theorem step_moves {e : Event τ ρ} (hcall : ∀ request, e ≠ .call request)
    (h : step serve capacity s e = some s') : Moves s s' := by
  cases e with
  | call request => exact absurd rfl (hcall request)
  | accept caller =>
    simp only [step] at h
    split at h
    · rename_i request hlookup
      have hwaits := held_pos (mem_of_lookup hlookup)
      split at h
      · cases h
        constructor <;> grind [places, stages, held_without, held_append_single]
      · cases h
    · cases h
  | serve time =>
    simp only [step] at h
    split at h
    · rename_i caller request rest hqueue
      split at h
      · cases h
        constructor <;> grind [places, stages, held_without, held_append_single, held_cons]
      · cases h
    · cases h
  | reply caller =>
    simp only [step] at h
    split at h
    · rename_i answer hlookup
      have hwaits := held_pos (mem_of_lookup hlookup)
      cases h
      constructor <;> grind [places, stages, held_without, held_append_single]
    · cases h
  | refuse caller =>
    simp only [step] at h
    split at h
    · rename_i hrefused
      have hwaits : 0 < held s.waiting caller ∨ 0 < s.dropped.count caller :=
        hrefused.2.imp List.count_pos_iff.mpr List.count_pos_iff.mpr
      cases h
      constructor <;> grind [places, stages, held_without, count_remove]
    · cases h
  | leave caller =>
    simp only [step] at h
    split at h
    · cases h
      constructor <;> grind [places, stages, held_without, count_remove]
    · cases h
  | stop =>
    simp only [step] at h
    cases h
    constructor <;> grind [places, stages, held, held_nil, count_staying]

-- ---------------------------------------------------------------------------
-- Linearizability
-- ---------------------------------------------------------------------------

/-- The answers to requests that are served one after the other, and the state they leave. -/
def serial (serve : τ → ρ → σ → α × σ) : σ → List (τ × ρ) → List α × σ
  | state, [] => ([], state)
  | state, (time, request) :: rest =>
    let result := serve time request state
    let (answers, last) := serial serve result.2 rest
    (result.1 :: answers, last)

theorem serial_concat {state : σ} {inputs : List (τ × ρ)} {time : τ} {request : ρ} :
    serial serve state (inputs ++ [(time, request)]) =
      let (answers, last) := serial serve state inputs
      let result := serve time request last
      (answers ++ [result.1], result.2) := by
  induction inputs generalizing state with
  | nil => rfl
  | cons input rest ih =>
    simp only [List.cons_append, serial]
    rw [ih]

/-- Where requests are served before and after one of them, and what it was answered. -/
theorem serial_split {first last : σ} {earlier later : List (Entry τ ρ α)} {entry : Entry τ ρ α}
    (h : serial serve first ((earlier ++ entry :: later).map fun e => (e.time, e.request)) =
      ((earlier ++ entry :: later).map (·.answer), last)) :
    ∃ state, serial serve first (earlier.map fun e => (e.time, e.request)) = (earlier.map (·.answer), state) ∧
      entry.answer = (serve entry.time entry.request state).1 ∧
      serial serve (serve entry.time entry.request state).2 (later.map fun e => (e.time, e.request)) =
        (later.map (·.answer), last) := by
  induction earlier generalizing first with
  | nil =>
    simp only [List.nil_append, List.map_cons, serial, Prod.mk.injEq, List.cons.injEq] at h
    obtain ⟨⟨hanswer, hanswers⟩, hlast⟩ := h
    exact ⟨first, rfl, hanswer.symm, Prod.ext hanswers hlast⟩
  | cons e rest ih =>
    simp only [List.cons_append, List.map_cons, serial, Prod.mk.injEq, List.cons.injEq] at h ⊢
    obtain ⟨⟨hanswer, hanswers⟩, hlast⟩ := h
    obtain ⟨state, hrest, hentry, hlater⟩ := ih (Prod.ext hanswers hlast)
    exact ⟨state, ⟨⟨hanswer, congrArg Prod.fst hrest⟩, congrArg Prod.snd hrest⟩, hentry, hlater⟩

/-- What every request keeps is kept by all of them. -/
theorem serial_invariant {I : σ → Prop} {first last : σ} {answers : List α} {inputs : List (τ × ρ)}
    (h : serial serve first inputs = (answers, last)) (hfirst : I first)
    (hserve : ∀ input ∈ inputs, ∀ state, I state → I (serve input.1 input.2 state).2) : I last := by
  induction inputs generalizing first answers with
  | nil =>
    obtain rfl : first = last := congrArg Prod.snd h
    exact hfirst
  | cons input rest ih =>
    have hlast : (serial serve (serve input.1 input.2 first).2 rest).2 = last := congrArg Prod.snd h
    refine ih (Prod.ext rfl hlast) (hserve input List.mem_cons_self first hfirst) ?_
    exact fun input' hinput' => hserve input' (List.mem_cons_of_mem input hinput')

/-- An answer was given in the history, behind entries of callers that had come by then. -/
def AnsweredAt (history : List (Entry τ ρ α)) (r : Return α) (answer : α) : Prop :=
  ∃ earlier entry later, history = earlier ++ entry :: later ∧ entry.caller = r.caller ∧ entry.answer = answer ∧
    ∀ e ∈ earlier, e.caller < r.calls

/-- What a caller was told is so: its request was answered like this, or it will never be served. -/
structure Explains (s : Actor σ τ ρ α) (r : Return α) : Prop where
  caller : r.caller < r.calls
  calls : r.calls ≤ s.calls.length
  answered : ∀ answer ∈ r.answer, AnsweredAt s.history r answer
  refused : r.answer = none → s.places r.caller = 0

/-- The history of an actor explains its state and everything that callers were told. -/
structure Linearized (serve : τ → ρ → σ → α × σ) (capacity : Nat) (first : σ) (s : Actor σ τ ρ α) : Prop where
  /-- The state and the answers are those of the served requests one after the other. -/
  serial : serial serve first (s.history.map fun e => (e.time, e.request)) = (s.history.map (·.answer), s.state)
  requested : ∀ e ∈ s.history, s.calls[e.caller]? = some e.request
  queued : ∀ c ∈ s.waiting ++ s.queue, s.calls[c.1]? = some c.2
  /-- No request is served twice, or served and dropped. -/
  once : ∀ caller, s.places caller ≤ 1
  /-- No caller is told twice. -/
  told : ∀ caller, s.stages caller ≤ 1
  known : ∀ caller, s.calls.length ≤ caller → s.places caller = 0 ∧ s.stages caller = 0
  /-- No caller is forgotten, as long as it stays. -/
  kept : ∀ caller < s.calls.length, caller ∉ s.left → 0 < s.stages caller
  bounded : s.queue.length ≤ capacity
  replied : ∀ c ∈ s.replies, ∃ e ∈ s.history, e.caller = c.1 ∧ e.answer = c.2
  returned : ∀ r ∈ s.returned, s.Explains r

theorem AnsweredAt.mono {history history' : List (Entry τ ρ α)} {r : Return α} {answer : α}
    (h : AnsweredAt history r answer) (hmore : history <+: history') : AnsweredAt history' r answer := by
  obtain ⟨earlier, entry, later, rfl, hcaller, hanswer, hearlier⟩ := h
  obtain ⟨more, rfl⟩ := hmore
  exact ⟨earlier, entry, later ++ more, by simp, hcaller, hanswer, hearlier⟩

theorem Explains.mono {r : Return α} (h : s.Explains r) (hmoves : Moves s s') : s'.Explains r where
  caller := h.caller
  calls := hmoves.calls ▸ h.calls
  answered answer hanswer := (h.answered answer hanswer).mono hmoves.history
  refused hnone := Nat.le_zero.mp (h.refused hnone ▸ hmoves.places r.caller)

theorem Linearized.start {first : σ} : Linearized serve capacity first (Actor.start first) where
  serial := rfl
  requested := nofun
  queued := nofun
  once _ := Nat.zero_le 1
  told _ := Nat.zero_le 1
  known _ _ := ⟨rfl, rfl⟩
  kept := nofun
  bounded := Nat.zero_le capacity
  replied := nofun
  returned := nofun

/-- What is left to show after a step that moves callers. -/
theorem Linearized.of_moves {first : σ} (h : Linearized serve capacity first s) (hmoves : Moves s s')
    (hserial : Actor.serial serve first (s'.history.map fun e => (e.time, e.request)) =
      (s'.history.map (·.answer), s'.state))
    (hrequested : ∀ e ∈ s'.history, s.calls[e.caller]? = some e.request)
    (hqueued : ∀ c ∈ s'.waiting ++ s'.queue, s.calls[c.1]? = some c.2) (hbounded : s'.queue.length ≤ capacity)
    (hreplied : ∀ c ∈ s'.replies, ∃ e ∈ s'.history, e.caller = c.1 ∧ e.answer = c.2)
    (hreturned : ∀ r ∈ s'.returned, r ∈ s.returned ∨ s'.Explains r) : Linearized serve capacity first s' where
  serial := hserial
  requested := hmoves.calls.symm ▸ hrequested
  queued := hmoves.calls.symm ▸ hqueued
  once a := Nat.le_trans (hmoves.places a) (h.once a)
  told a := Nat.le_trans (hmoves.stages a) (h.told a)
  known a ha := by
    rw [hmoves.calls] at ha
    obtain ⟨hplaces, hstages⟩ := h.known a ha
    exact ⟨Nat.le_zero.mp (hplaces ▸ hmoves.places a), Nat.le_zero.mp (hstages ▸ hmoves.stages a)⟩
  kept a ha hstays := by
    rw [hmoves.calls] at ha
    exact hmoves.kept a hstays (h.kept a ha fun hleft => hstays (hmoves.left a hleft))
  bounded := hbounded
  replied := hreplied
  returned r hr := (hreturned r hr).elim (fun hold => (h.returned r hold).mono hmoves) id

theorem Linearized.lt_of_places {first : σ} {a : Nat} (h : Linearized serve capacity first s)
    (ha : 0 < s.places a) : a < s.calls.length := by
  by_contra hlt
  have hknown := (h.known a (Nat.le_of_not_lt hlt)).1
  omega

theorem places_pos {e : Entry τ ρ α} (he : e ∈ s.history) : 0 < s.places e.caller := by
  have hcount : 0 < (s.history.map (·.caller)).count e.caller := List.count_pos_iff.mpr (List.mem_map_of_mem he)
  unfold places
  omega

/-- A new caller has not been anywhere yet. -/
theorem Linearized.call {first : σ} {request : ρ} (h : Linearized serve capacity first s) :
    Linearized serve capacity first
      { s with calls := s.calls ++ [request], waiting := s.waiting ++ [(s.calls.length, request)] } := by
  have hgrows : ∀ {a : Nat} {r : ρ}, s.calls[a]? = some r → (s.calls ++ [request])[a]? = some r := by
    intro a r ha
    rw [List.getElem?_append_left (List.getElem?_eq_some_iff.mp ha).1]
    exact ha
  obtain ⟨hplaces, hstages⟩ := h.known s.calls.length (Nat.le_refl _)
  constructor
  case serial => exact h.serial
  case requested => exact fun e he => hgrows (h.requested e he)
  case queued =>
    intro c hc
    have hcases : c ∈ s.waiting ++ s.queue ∨ c = (s.calls.length, request) := by grind
    cases hcases with
    | inl hold => exact hgrows (h.queued c hold)
    | inr hnew =>
      rw [hnew]
      exact List.getElem?_concat_length
  case once =>
    intro a
    have honce := h.once a
    grind [places, held_append_single]
  case told =>
    intro a
    have htold := h.told a
    grind [stages, held_append_single]
  case known =>
    intro a ha
    rw [List.length_append, List.length_singleton] at ha
    have hknown := h.known a (Nat.le_of_succ_le ha)
    grind [places, stages, held_append_single]
  case kept =>
    intro a ha hstays
    rw [List.length_append, List.length_singleton] at ha
    have hkept := fun ha => h.kept a ha hstays
    grind [stages, held_append_single]
  case bounded => exact h.bounded
  case replied => exact h.replied
  case returned =>
    intro r hr
    obtain ⟨hcaller, hcalls, hanswered, hrefused⟩ := h.returned r hr
    have hold : r.caller ≠ s.calls.length := Nat.ne_of_lt (Nat.lt_of_lt_of_le hcaller hcalls)
    refine ⟨hcaller, Nat.le_trans hcalls (by simp), hanswered, fun hnone => ?_⟩
    have hnowhere := hrefused hnone
    grind [places, held_append_single]

theorem Linearized.step {first : σ} {e : Event τ ρ} (h : Linearized serve capacity first s)
    (hstep : step serve capacity s e = some s') : Linearized serve capacity first s' := by
  cases e with
  | call request =>
    obtain rfl : _ = s' := Option.some_inj.mp hstep
    exact h.call
  | accept caller =>
    have hmoves := step_moves nofun hstep
    simp only [Actor.step] at hstep
    split at hstep
    · rename_i request hlookup
      split at hstep
      · rename_i hroom
        cases hstep
        apply h.of_moves hmoves h.serial h.requested
        case hqueued =>
          intro c hc
          apply h.queued
          have hmem := mem_of_lookup hlookup
          grind [without]
        case hbounded =>
          rw [List.length_append, List.length_singleton]
          exact hroom.2
        case hreplied => exact h.replied
        case hreturned => exact fun r hr => .inl hr
      · cases hstep
    · cases hstep
  | serve time =>
    have hmoves := step_moves nofun hstep
    simp only [Actor.step] at hstep
    split at hstep
    · rename_i caller request rest hqueue
      have hbounded := h.bounded
      have hqueued := h.queued
      rw [hqueue] at hbounded hqueued
      split at hstep
      · cases hstep
        apply h.of_moves hmoves
        case hserial =>
          simp only [List.map_append, List.map_cons, List.map_nil]
          rw [serial_concat, h.serial]
        case hrequested =>
          intro e he
          cases List.mem_append.mp he with
          | inl hold => exact h.requested e hold
          | inr hnew =>
            rw [List.mem_singleton.mp hnew]
            exact hqueued (caller, request) (List.mem_append_right _ List.mem_cons_self)
        case hqueued =>
          intro c hc
          apply hqueued
          grind
        case hbounded => exact Nat.le_of_succ_le hbounded
        case hreplied =>
          intro c hc
          have hcases : c ∈ s.replies ∨ c = (caller, (serve time request s.state).1) := by grind
          cases hcases with
          | inl hold =>
            obtain ⟨e, he, hanswers⟩ := h.replied c hold
            exact ⟨e, List.mem_append_left _ he, hanswers⟩
          | inr hnew =>
            rw [hnew]
            exact ⟨_, List.mem_append_right _ List.mem_cons_self, rfl, rfl⟩
        case hreturned => exact fun r hr => .inl hr
      · cases hstep
    · cases hstep
  | reply caller =>
    have hmoves := step_moves nofun hstep
    simp only [Actor.step] at hstep
    split at hstep
    · rename_i answer hlookup
      cases hstep
      have hreplied : ∀ c ∈ without caller s.replies, ∃ e ∈ s.history, e.caller = c.1 ∧ e.answer = c.2 :=
        fun c hc => h.replied c (List.mem_of_mem_filter hc)
      apply h.of_moves hmoves h.serial h.requested h.queued h.bounded hreplied
      intro r hr
      cases List.mem_append.mp hr with
      | inl hold => exact .inl hold
      | inr hnew =>
        obtain rfl := List.mem_singleton.mp hnew
        obtain ⟨e, he, hcaller, hanswer⟩ := h.replied _ (mem_of_lookup hlookup)
        replace hcaller : e.caller = caller := hcaller
        have hcome : ∀ e' ∈ s.history, e'.caller < s.calls.length := fun e' he' => h.lt_of_places (places_pos he')
        obtain ⟨earlier, later, hhistory⟩ := List.append_of_mem he
        have hearlier : ∀ e' ∈ earlier, e'.caller < s.calls.length := by
          intro e' he'
          apply hcome
          rw [hhistory]
          exact List.mem_append_left _ he'
        have hknown : caller < s.calls.length := hcaller ▸ hcome e he
        refine .inr ⟨hknown, Nat.le_refl _, fun answer' hanswer' => ?_, nofun⟩
        obtain rfl : answer = answer' := Option.some_inj.mp hanswer'
        exact ⟨earlier, e, later, hhistory, hcaller, hanswer, hearlier⟩
    · cases hstep
  | refuse caller =>
    have hmoves := step_moves nofun hstep
    simp only [Actor.step] at hstep
    split at hstep
    · rename_i hrefused
      cases hstep
      have hqueued : ∀ c ∈ without caller s.waiting ++ s.queue, s.calls[c.1]? = some c.2 := by
        intro c hc
        apply h.queued
        grind [without]
      apply h.of_moves hmoves h.serial h.requested hqueued h.bounded h.replied
      intro r hr
      cases List.mem_append.mp hr with
      | inl hold => exact .inl hold
      | inr hnew =>
        obtain rfl := List.mem_singleton.mp hnew
        have hwaits : 0 < held s.waiting caller ∨ 0 < s.dropped.count caller :=
          hrefused.2.imp List.count_pos_iff.mpr List.count_pos_iff.mpr
        have honce := h.once caller
        have hplaces : 0 < s.places caller := by
          unfold places
          omega
        refine .inr ⟨h.lt_of_places hplaces, Nat.le_refl _, nofun, fun _ => ?_⟩
        grind [places, held_without, count_remove]
    · cases hstep
  | leave caller =>
    have hmoves := step_moves nofun hstep
    simp only [Actor.step] at hstep
    split at hstep
    · cases hstep
      have hqueued : ∀ c ∈ without caller s.waiting ++ s.queue, s.calls[c.1]? = some c.2 := by
        intro c hc
        apply h.queued
        grind [without]
      have hreplied : ∀ c ∈ without caller s.replies, ∃ e ∈ s.history, e.caller = c.1 ∧ e.answer = c.2 :=
        fun c hc => h.replied c (List.mem_of_mem_filter hc)
      exact h.of_moves hmoves h.serial h.requested hqueued h.bounded hreplied fun r hr => .inl hr
    · cases hstep
  | stop =>
    have hmoves := step_moves nofun hstep
    obtain rfl : _ = s' := Option.some_inj.mp hstep
    have hqueued : ∀ c ∈ s.waiting ++ [], s.calls[c.1]? = some c.2 := by
      intro c hc
      apply h.queued
      grind
    exact h.of_moves hmoves h.serial h.requested hqueued (Nat.zero_le capacity) h.replied fun r hr => .inl hr

/-- A request that was answered before another caller came is served before the request of that caller. -/
theorem Linearized.realTime {first : σ} {r : Return α} {answer : α} {e : Entry τ ρ α}
    (h : Linearized serve capacity first s) (hr : r ∈ s.returned) (hanswer : r.answer = some answer)
    (he : e ∈ s.history) (hcame : r.calls ≤ e.caller) :
    ∃ earlier entry later, s.history = earlier ++ entry :: later ∧ entry.caller = r.caller ∧
      entry.answer = answer ∧ e ∈ later := by
  obtain ⟨hcaller, _, hanswered, _⟩ := h.returned r hr
  obtain ⟨earlier, entry, later, hhistory, hentry, hgiven, hearlier⟩ := hanswered answer hanswer
  refine ⟨earlier, entry, later, hhistory, hentry, hgiven, ?_⟩
  rw [hhistory] at he
  cases List.mem_append.mp he with
  | inl hbefore => exact absurd (hearlier e hbefore) (Nat.not_lt.mpr hcame)
  | inr hafter =>
    cases List.mem_cons.mp hafter with
    | inl hsame =>
      rw [hsame, hentry] at hcame
      omega
    | inr hlater => exact hlater

end Actor
