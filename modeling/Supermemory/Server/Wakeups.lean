-- SUMMARY: Notifications of the indexing coordinator: it does not wait for work that somebody has already announced.
import Supermemory.Server.Health
import Supermemory.Server.IndexingCoordinator
import Supermemory.Storage.QueuedDocuments

/-!
# Wake-ups

The indexing coordinator sleeps until it is notified. A caller whose upsert queued a document
notifies it when the reply of the writer arrives, which is after the document can be claimed,
and before or after the coordinator last looked for it. A notification that nobody waits for
is stored, and taken by the next wait. A caller that goes away does not notify, and after an
error the coordinator waits although there may be work; for these there is the rescan.
-/

namespace Server

open Storage

-- ---------------------------------------------------------------------------
-- The coordinator
-- ---------------------------------------------------------------------------

/-- Where `process_available` is, or how it ended. -/
inductive Round where
  /-- It asks for another job. -/
  | claiming (jobs : List ClaimedJob)
  /-- The writer has executed the claim, and the reply is on its way. -/
  | asked (jobs : List ClaimedJob) (job : Option ClaimedJob)
  | joining (jobs : List ClaimedJob)
  /-- It returned `Ok(false)`. -/
  | nothing
  /-- It returned an error. -/
  | failed
  deriving DecidableEq

/-- The loop of the coordinator, the store, and the notifications between them. -/
structure Indexer where
  clock : Time
  store : System
  health : HealthState
  place : Place
  round : Round
  /-- A notification is stored. -/
  permit : Bool
  /-- The documents that were queued by upserts whose callers have not got the reply. -/
  unannounced : List String
  deriving DecidableEq

inductive IndexerEvent where
  /-- The loop looks at the health, or is left. -/
  | observe
  | leave
  /-- The writer executes `claim_job`. -/
  | claim (now : Time)
  /-- The reply to `claim_job` arrives. -/
  | answered
  /-- The writer refuses `claim_job`. -/
  | refused (fatal : Bool)
  /-- Every task of the cohort has returned, or one with an error. -/
  | joined (error : Option Bool)
  | notified
  | rescan
  /-- The writer executes a call of another part of the server, or of a task of the cohort. -/
  | call (now : Time) (call : Call)
  /-- The reply to an upsert that queued the document arrives, and its caller notifies. -/
  | announce (documentId : String)
  /-- Another part of the server changes the health. -/
  | health (health : HealthState)
  deriving DecidableEq

namespace Indexer

variable {env : Env}

/-- A step of the loop, after which `process_available` starts anew unless it has just ended. -/
def loop (s : Indexer) (event : IndexingEvent) (round : Round) : Option Indexer :=
  (indexingStep s.health s.place event).map fun (health, place) => { s with health, place, round }

/-- The next job of the cohort, or none. -/
def answered (s : Indexer) (jobs : List ClaimedJob) : Option ClaimedJob → Option Indexer
  | some job =>
    let jobs := jobs ++ [job]
    some { s with round := if jobs.length < preparationConcurrency then .claiming jobs else .joining jobs }
  | none =>
    if jobs = [] then s.loop (.processed (.ok false)) .nothing
    else some { s with round := .joining jobs }

/-- Executes a call at a time. -/
def execute (env : Env) (s : Indexer) (now : Time) (call : Call) : Indexer :=
  { s with clock := now, store := s.store.after call (call.run env now s.store.db) }

def step (env : Env) (s : Indexer) : IndexerEvent → Option Indexer
  | .observe => s.loop .observe (.claiming [])
  | .leave => s.loop .leave s.round
  | .claim now =>
    match s.round with
    | .claiming jobs =>
      if s.place = .working ∧ s.clock ≤ now then
        some { s.execute env now .claimJob with round := .asked jobs (claimJob now s.store.db).1 }
      else none
    | _ => none
  | .answered =>
    match s.round with
    | .asked jobs job => if s.place = .working then s.answered jobs job else none
    | _ => none
  | .refused fatal =>
    match s.round with
    | .claiming _ | .asked _ _ => s.loop (.processed (.error fatal)) .failed
    | _ => none
  | .joined error =>
    match s.round, error with
    | .joining _, none => s.loop (.processed (.ok true)) (.claiming [])
    | .joining _, some fatal => s.loop (.processed (.error fatal)) .failed
    | _, _ => none
  | .notified => if s.permit then { s with permit := false }.loop .wake (.claiming []) else none
  | .rescan => s.loop .wake (.claiming [])
  | .call now call =>
    if s.clock ≤ now ∧ call.Issued s.store ∧ call ≠ .claimJob ∧ call ≠ .openStorage then
      let queued := (call.run env now s.store.db).1.toOption.bind Answer.queued
      some { s.execute env now call with unannounced := queued.toList ++ s.unannounced }
    else none
  | .announce documentId =>
    if documentId ∈ s.unannounced then
      some { s with permit := true, unannounced := s.unannounced.erase documentId }
    else none
  | .health health => some { s with health }

end Indexer

/-- The indexing coordinator of a server that has opened some store. -/
def indexers (env : Env) : Machine Indexer IndexerEvent where
  init s := (clocked env).Reachable ⟨s.clock, s.store⟩ ∧ s.health = .healthy ∧ s.place = .top ∧
    s.round = .claiming [] ∧ s.permit = false ∧ s.unannounced = []
  step := Indexer.step env

-- ---------------------------------------------------------------------------
-- Notifications
-- ---------------------------------------------------------------------------

variable {env : Env} {s s' : Indexer} {event : IndexerEvent}

theorem loop_some {event : IndexingEvent} {round : Round} (h : s.loop event round = some s') :
    ∃ health place, indexingStep s.health s.place event = some (health, place) ∧
      s' = { s with health, place, round } := by
  obtain ⟨⟨health, place⟩, hstep, rfl⟩ := Option.map_eq_some_iff.mp h
  exact ⟨health, place, hstep, rfl⟩

/-- The loop waits when `process_available` has returned, and only then. -/
theorem indexingStep_waiting {health health' : HealthState} {place : Place} {event : IndexingEvent}
    (h : indexingStep health place event = some (health', .waiting)) :
    event = .processed (.ok false) ∨ event = .processed (.error false) := by
  unfold indexingStep at h
  split at h
  case h_1 =>
    unfold Place.observe at h
    split at h <;> cases h
  case h_3 => exact .inl rfl
  case h_5 => exact .inr rfl
  all_goals cases h

/-- A claim has found nothing, and the coordinator goes on to wait. -/
def Round.IsIdle (round : Round) : Prop := round = .nothing ∨ round = .asked [] none

theorem not_isIdle_claiming {jobs : List ClaimedJob} : ¬ (Round.claiming jobs).IsIdle := by rintro (h | h) <;> cases h

theorem not_isIdle_joining {jobs : List ClaimedJob} : ¬ (Round.joining jobs).IsIdle := by rintro (h | h) <;> cases h

theorem not_isIdle_failed : ¬ Round.failed.IsIdle := by rintro (h | h) <;> cases h

/-- Work that an idle coordinator has not been told of is announced to it by a caller that waits for its reply. -/
structure Notified (env : Env) (s : Indexer) : Prop where
  reachable : (clocked env).Reachable ⟨s.clock, s.store⟩
  waiting : s.place = .waiting → s.round = .nothing ∨ s.round = .failed
  covered : s.round.IsIdle → s.permit = false → ∀ j, Claimable s.store.db j → j.documentId ∈ s.unannounced

namespace Notified

/-- A step of the loop after which the coordinator is not idle. -/
theorem busy {event : IndexingEvent} {round : Round} (h : Notified env s) (hloop : s.loop event round = some s')
    (hround : ¬ round.IsIdle)
    (hwaiting : event = .processed (.ok false) ∨ event = .processed (.error false) → round = .failed) :
    Notified env s' := by
  obtain ⟨health, place, hstep, rfl⟩ := loop_some hloop
  refine ⟨h.reachable, fun hplace => ?_, fun hidle => absurd hidle hround⟩
  obtain rfl : place = .waiting := hplace
  exact .inr (hwaiting (indexingStep_waiting hstep))

/-- A step that leaves the loop where it is, and no job more to claim. -/
theorem elsewhere (h : Notified env s) (hclock : s'.clock = s.clock) (hstore : s'.store = s.store)
    (hplace : s'.place = s.place) (hround : s'.round = s.round)
    (hunannounced : s'.permit = false → s.permit = false ∧ s'.unannounced = s.unannounced) : Notified env s' where
  reachable := by
    rw [hclock, hstore]
    exact h.reachable
  waiting := by
    rw [hplace, hround]
    exact h.waiting
  covered := by
    intro hidle hpermit
    obtain ⟨hbefore, hsame⟩ := hunannounced hpermit
    rw [hstore, hsame]
    exact h.covered (hround ▸ hidle) hbefore

/-- The store executes a call. -/
theorem run {now : Time} {call : Call} (h : Notified env s) (hclock : s.clock ≤ now) (hissued : call.Issued s.store) :
    (clocked env).Reachable ⟨now, s.store.after call (call.run env now s.store.db)⟩ := by
  have hstep : (clocked env).step ⟨s.clock, s.store⟩ (now, call) =
      some ⟨now, s.store.after call (call.run env now s.store.db)⟩ := clocked_step.mpr ⟨hclock, hissued, rfl⟩
  exact h.reachable.step hstep

theorem claim {now : Time} {jobs : List ClaimedJob} (h : Notified env s) (hclock : s.clock ≤ now)
    (hplace : s.place = .working) :
    Notified env { s.execute env now .claimJob with round := .asked jobs (claimJob now s.store.db).1 } where
  reachable := by
    have hissued : Call.Issued s.store .claimJob := ⟨by simp [Call.job], by simp [Call.memoryJob]⟩
    exact h.run hclock hissued
  waiting := fun hwaiting => absurd (hplace.symm.trans hwaiting) Place.noConfusion
  covered := by
    intro hidle _ j hj
    have hnone : (claimJob now s.store.db).1 = none := by
      cases hidle with
      | inl hidle => cases hidle
      | inr hidle => exact (Round.asked.inj hidle).2
    have hdb : (s.store.after .claimJob (Call.run env now .claimJob s.store.db)).db = s.store.db := by
      rw [System.after_db]
      exact claimJob_none (Prod.ext hnone rfl)
    have hj : Claimable s.store.db j := by
      rw [← hdb]
      exact hj
    exact absurd hj (not_claimable hnone (timely_of_reachable h.reachable) hclock)

theorem call {now : Time} {call : Call} (h : Notified env s) (hclock : s.clock ≤ now) (hissued : call.Issued s.store)
    (hopen : call ≠ .openStorage) :
    Notified env { s.execute env now call with
      unannounced := ((call.run env now s.store.db).1.toOption.bind Answer.queued).toList ++ s.unannounced } where
  reachable := h.run hclock hissued
  waiting := h.waiting
  covered := by
    intro hidle hpermit j hj
    have hs : Consistent env s.store := consistent_of_reachable (machine_of_clocked h.reachable)
    have hj : Claimable (call.run env now s.store.db).2 j := by
      rw [← System.after_db s.store call]
      exact hj
    apply List.mem_append.mpr
    cases claimable_before hs hissued hopen hj with
    | inl hbefore =>
      obtain ⟨i, hi, hsame⟩ := hbefore
      exact .inr (hsame ▸ h.covered hidle hpermit i hi)
    | inr hqueued =>
      obtain ⟨answer, hanswer, hqueued⟩ := hqueued
      refine .inl (Option.mem_toList.mpr ?_)
      rw [hanswer]
      exact hqueued

end Notified

theorem notified_step (h : Notified env s) (hstep : (indexers env).step s event = some s') : Notified env s' := by
  simp only [indexers] at hstep
  cases event with
  | observe => exact h.busy hstep not_isIdle_claiming (by rintro (h | h) <;> cases h)
  | leave =>
    obtain ⟨health, place, hloop, rfl⟩ := loop_some hstep
    refine ⟨h.reachable, fun hplace => ?_, h.covered⟩
    obtain rfl : place = .waiting := hplace
    cases indexingStep_waiting hloop with
    | inl hevent => cases hevent
    | inr hevent => cases hevent
  | claim now =>
    simp only [Indexer.step] at hstep
    split at hstep
    · split at hstep
      · rename_i hguard
        obtain rfl := Option.some_inj.mp hstep
        exact h.claim hguard.2 hguard.1
      · cases hstep
    · cases hstep
  | answered =>
    simp only [Indexer.step] at hstep
    split at hstep
    · rename_i jobs job hround
      split at hstep
      · rename_i hplace
        cases job with
        | some job =>
          obtain rfl := Option.some_inj.mp hstep
          refine ⟨h.reachable, fun hwaiting => absurd (hplace.symm.trans hwaiting) Place.noConfusion, fun hidle => ?_⟩
          dsimp only at hidle
          split at hidle
          · exact absurd hidle not_isIdle_claiming
          · exact absurd hidle not_isIdle_joining
        | none =>
          simp only [Indexer.answered] at hstep
          split at hstep
          · rename_i hempty
            subst hempty
            obtain ⟨health, place, _, rfl⟩ := loop_some hstep
            exact ⟨h.reachable, fun _ => .inl rfl, fun _ => h.covered (.inr hround)⟩
          · obtain rfl := Option.some_inj.mp hstep
            exact ⟨h.reachable, fun hwaiting => absurd (hplace.symm.trans hwaiting) Place.noConfusion,
              fun hidle => absurd hidle not_isIdle_joining⟩
      · cases hstep
    · cases hstep
  | refused fatal =>
    simp only [Indexer.step] at hstep
    split at hstep
    · exact h.busy hstep not_isIdle_failed fun _ => rfl
    · exact h.busy hstep not_isIdle_failed fun _ => rfl
    · cases hstep
  | joined error =>
    simp only [Indexer.step] at hstep
    split at hstep
    · exact h.busy hstep not_isIdle_claiming (by rintro (h | h) <;> cases h)
    · exact h.busy hstep not_isIdle_failed fun _ => rfl
    · cases hstep
  | notified =>
    simp only [Indexer.step] at hstep
    split at hstep
    · obtain ⟨health, place, hloop, rfl⟩ := loop_some hstep
      refine ⟨h.reachable, fun hplace => ?_, fun hidle => absurd hidle not_isIdle_claiming⟩
      obtain rfl : place = .waiting := hplace
      cases indexingStep_waiting hloop with
      | inl hevent => cases hevent
      | inr hevent => cases hevent
    · cases hstep
  | rescan => exact h.busy hstep not_isIdle_claiming (by rintro (h | h) <;> cases h)
  | call now call =>
    simp only [Indexer.step] at hstep
    split at hstep
    · rename_i hguard
      obtain rfl := Option.some_inj.mp hstep
      exact h.call hguard.1 hguard.2.1 hguard.2.2.2
    · cases hstep
  | announce documentId =>
    simp only [Indexer.step] at hstep
    split at hstep
    · obtain rfl := Option.some_inj.mp hstep
      exact h.elsewhere rfl rfl rfl rfl nofun
    · cases hstep
  | health health =>
    obtain rfl := Option.some_inj.mp hstep
    exact h.elsewhere rfl rfl rfl rfl fun hpermit => ⟨hpermit, rfl⟩

theorem notified_of_reachable (h : (indexers env).Reachable s) : Notified env s := by
  apply h.invariant
  · rintro s ⟨hstore, _, hplace, hround, _, _⟩
    refine ⟨hstore, fun hwaiting => absurd (hplace.symm.trans hwaiting) Place.noConfusion, fun hidle => ?_⟩
    rw [hround] at hidle
    exact absurd hidle not_isIdle_claiming
  · intro s event s' _ hs hstep
    exact notified_step hs hstep

theorem claimable_of_claim {now : Time} {db : Database} {k : ClaimedJob} (h : (claimJob now db).1 = some k) :
    ∃ j, Claimable db j := by
  obtain ⟨j, d, hj, hd, hid, hkind, hqueued, hrevision, _⟩ := claimJob_some (Prod.ext h rfl)
  exact ⟨j, hj, hkind, hqueued, documentRevision_eq_some.mpr ⟨d, hd, hid, hrevision.symm⟩⟩

/-- No wake-up is lost. The coordinator waits only after an error, or with a notification stored for it, or when
    every document that can be claimed was queued by an upsert whose caller has not got its reply yet and will
    notify when it does. So once all replies have arrived, it waits for nothing that is there. -/
theorem no_lost_wakeup (h : (indexers env).Reachable s) (hwaiting : s.place = .waiting) (hround : s.round ≠ .failed)
    (hpermit : s.permit = false) : (∀ j, Claimable s.store.db j → j.documentId ∈ s.unannounced) ∧
      (s.unannounced = [] → ∀ now, (claimJob now s.store.db).1 = none) := by
  have hnotified := notified_of_reachable h
  have hidle : s.round.IsIdle := .inl ((hnotified.waiting hwaiting).resolve_right hround)
  have hcovered := hnotified.covered hidle hpermit
  refine ⟨hcovered, fun hempty now => ?_⟩
  cases hclaim : (claimJob now s.store.db).1 with
  | none => rfl
  | some k =>
    obtain ⟨j, hj⟩ := claimable_of_claim hclaim
    have hmem := hcovered j hj
    rw [hempty] at hmem
    exact absurd hmem List.not_mem_nil

/-- The coordinator finds nothing and waits. Then a text is stored. -/
def noteArrives : List IndexerEvent :=
  [.observe, .claim 63871286400, .answered, .call 63871286401 (.upsertDocument "" (upsertOf "a fact"))]

/-- The coordinator of a store that was opened for the first time, after some events. -/
def indexerAfter (events : List IndexerEvent) : Option Indexer :=
  ((clocked unaryEnv).replay ⟨63871286400, emptySystem⟩ [(63871286400, .openStorage)]).bind fun opened =>
    (indexers unaryEnv).replay ⟨opened.clock, opened.store, .healthy, .top, .claiming [], false, []⟩ events

theorem indexerAfter_reachable {events : List IndexerEvent} (h : indexerAfter events = some s) :
    (indexers unaryEnv).Reachable s := by
  obtain ⟨opened, hopened, hreplay⟩ := Option.bind_eq_some_iff.mp h
  have hempty : (clocked unaryEnv).Reachable ⟨63871286400, emptySystem⟩ := .start ⟨∅, rfl⟩
  have hstart : (indexers unaryEnv).Reachable ⟨opened.clock, opened.store, .healthy, .top, .claiming [], false, []⟩ :=
    .start ⟨hempty.replay hopened, rfl, rfl, rfl, rfl, rfl⟩
  exact hstart.replay hreplay

/-- It is announced when the reply arrives, and then claimed. -/
theorem no_lost_wakeup_noteArrives : ∃ s ∈ indexerAfter noteArrives, ∃ j, Claimable s.store.db j ∧
    j.documentId ∈ s.unannounced ∧
    ∃ t ∈ indexerAfter (noteArrives ++ [.announce j.documentId, .notified, .observe, .claim 63871286402]),
      ∃ job, t.round = .asked [] (some job) := by
  have hrun : ∃ s ∈ indexerAfter noteArrives, s.place = .waiting ∧ s.round ≠ .failed ∧ s.permit = false ∧
      ∃ j ∈ s.store.db.jobs.rows, j.kind = .document ∧ j.status = .queued ∧
        s.store.db.documentRevision j.documentId = some j.revision ∧
        ∃ t ∈ indexerAfter (noteArrives ++ [.announce j.documentId, .notified, .observe, .claim 63871286402]),
          t.round = .asked [] (some ⟨j.id, j.documentId, "a fact", 1⟩) := by
    decide +kernel
  obtain ⟨s, hs, hwaiting, hround, hpermit, j, hj, hkind, hqueued, hcurrent, t, ht, hasked⟩ := hrun
  have hclaimable : Claimable s.store.db j := ⟨hj, hkind, hqueued, hcurrent⟩
  have hcovered := (no_lost_wakeup (indexerAfter_reachable hs) hwaiting hround hpermit).1
  exact ⟨s, hs, j, hclaimable, hcovered j hclaimable, t, ht, _, hasked⟩

end Server
