-- SUMMARY: The health of the service, under the middleware, the health handler, and the loops of both coordinators.
import Supermemory.Library.Machine

/-!
# Service health

One cell says whether the service is healthy. A fatal failure degrades it, in a request or
in the loop of a coordinator, and a probe of the health handler that succeeds recovers it.
A coordinator reads the cell at the top of its loop, and leaves when it is degraded; nothing
starts it again. So the service is healthy without a coordinator when a probe recovers it
after a coordinator has read that it is degraded, or has degraded it.
-/

namespace Server

inductive HealthState where
  | healthy
  | degraded (permanent : Bool)
  deriving DecidableEq

namespace HealthState

def isDegraded : HealthState → Bool
  | healthy => false
  | degraded _ => true

/-- Records a runtime failure. A later successful probe can clear it. -/
def degrade (_ : HealthState) : HealthState := degraded false

/-- Clears a transient failure after a successful durable operation. -/
def recover : HealthState → HealthState
  | degraded false => healthy
  | state => state

end HealthState

-- ---------------------------------------------------------------------------
-- The loop of the indexing coordinator
-- ---------------------------------------------------------------------------

/-- Where the loop of a coordinator is. -/
inductive Place where
  /-- It reads the health next. -/
  | top
  /-- It processes a cohort, or claims memory jobs. -/
  | working
  /-- It waits for what wakes it. -/
  | waiting
  /-- It breaks out of the loop, or returns. -/
  | leaving
  | left
  deriving DecidableEq

/-- The loop is over, or is left without another look at the health. -/
def Place.isGone : Place → Bool
  | leaving | left => true
  | _ => false

/-- The top of a loop: a degraded service has no use for a coordinator. -/
def Place.observe (health : HealthState) : Place := if health.isDegraded then leaving else working

/-- The result of `process_available`, as far as the loop looks at it. -/
inductive CohortResult where
  | ok (more : Bool)
  | error (fatal : Bool)
  deriving DecidableEq

inductive IndexingEvent where
  | observe
  | processed (result : CohortResult)
  /-- A notification, or a tick of the rescan. -/
  | wake
  | leave
  deriving DecidableEq

/-- One step of `IndexingCoordinator::run`, with the health it leaves. -/
def indexingStep (health : HealthState) : Place → IndexingEvent → Option (HealthState × Place)
  | .top, .observe => some (health, .observe health)
  | .working, .processed (.ok true) => some (health, .top)
  | .working, .processed (.ok false) => some (health, .waiting)
  | .working, .processed (.error true) => some (health.degrade, .leaving)
  | .working, .processed (.error false) => some (health, .waiting)
  | .waiting, .wake => some (health, .top)
  | .leaving, .leave => some (health, .left)
  | _, _ => none

-- ---------------------------------------------------------------------------
-- The loop of the memory extraction coordinator
-- ---------------------------------------------------------------------------

structure MemoryWorker where
  place : Place
  /-- How many tasks are in the join set. -/
  jobs : Nat
  concurrency : Nat
  maximumConcurrency : Nat
  deriving DecidableEq

/-- The result of `claim_memory_job`, as far as the loop looks at it. -/
inductive ClaimResult where
  | job
  | noJob
  | error (fatal : Bool)
  deriving DecidableEq

/-- What `join_next` returns, as far as the loop looks at it. -/
inductive JoinResult where
  | ok
  | error (fatal : Bool)
  | rateLimited
  /-- The task panicked or was cancelled. -/
  | stopped
  deriving DecidableEq

inductive MemoryEvent where
  | observe
  | claimed (result : ClaimResult)
  /-- The join set has as many tasks as it may have. -/
  | full
  | joined (result : JoinResult)
  | notified
  | rescan
  | leave
  deriving DecidableEq

namespace MemoryWorker

/-- The loop degrades the service and returns. -/
def stop (w : MemoryWorker) (health : HealthState) : HealthState × MemoryWorker :=
  (health.degrade, { w with place := .leaving })

/-- The result of a claim: a job is spawned, and without one the loop goes on to wait. -/
def claimed (w : MemoryWorker) (health : HealthState) : ClaimResult → HealthState × MemoryWorker
  | .job => (health, { w with jobs := w.jobs + 1 })
  | .noJob | .error false => (health, { w with place := .waiting })
  | .error true => w.stop health

/-- The result of a task. -/
def joined (w : MemoryWorker) (health : HealthState) (result : JoinResult) : HealthState × MemoryWorker :=
  let w := { w with jobs := w.jobs - 1 }
  match result with
  | .ok | .error false => (health, { w with place := .top })
  | .rateLimited => (health, { w with place := .top, concurrency := max (w.concurrency / 2) 1 })
  | .error true | .stopped => w.stop health

/-- A tick of the rescan restores capacity gradually. -/
def rescan (w : MemoryWorker) : MemoryWorker :=
  { w with place := .top, concurrency := min (w.concurrency + 1) w.maximumConcurrency }

/-- One step of `MemoryExtractionCoordinator::run`, with the health it leaves. -/
def step (w : MemoryWorker) (health : HealthState) : MemoryEvent → Option (HealthState × MemoryWorker)
  | .observe => if w.place = .top then some (health, { w with place := .observe health }) else none
  | .claimed result =>
    if w.place = .working ∧ w.jobs < w.concurrency then some (w.claimed health result) else none
  | .full =>
    if w.place = .working ∧ w.concurrency ≤ w.jobs then some (health, { w with place := .waiting }) else none
  | .joined result => if w.place = .waiting ∧ w.jobs ≠ 0 then some (w.joined health result) else none
  | .notified => if w.place = .waiting then some (health, { w with place := .top }) else none
  | .rescan => if w.place = .waiting then some (health, w.rescan) else none
  | .leave => if w.place = .leaving then some (health, { w with place := .left }) else none

end MemoryWorker

-- ---------------------------------------------------------------------------
-- The service
-- ---------------------------------------------------------------------------

/-- The paths that a degraded service still answers. -/
def isExempt (path : String) : Bool := path ∈ ["/", "/health", "/v4/openapi", "/v4/reference"]

structure Service where
  health : HealthState
  indexing : Place
  /-- Started with a provider and embeddings only. -/
  memory : Option MemoryWorker
  /-- How many requests passed the middleware and were not answered. -/
  admitted : Nat
  /-- How many probes of the health handler run. -/
  probing : Nat
  deriving DecidableEq

inductive ServiceEvent where
  /-- The middleware reads the health. -/
  | request (path : String)
  /-- The middleware passes a response on. -/
  | response (fatal : Bool)
  /-- The health handler reads the health. -/
  | health
  /-- The health handler has the result of its probe. -/
  | probed (ok : Bool)
  | indexing (event : IndexingEvent)
  | memory (event : MemoryEvent)
  deriving DecidableEq

namespace Service

/-- The service when it starts. -/
def start (embeddings provider : Bool) (providerConcurrency : Nat) : Service :=
  { health := .healthy
    indexing := .top
    memory := if provider && embeddings then some ⟨.top, 0, providerConcurrency, providerConcurrency⟩ else none
    admitted := 0
    probing := 0 }

/-- One step of the service. -/
def step (s : Service) : ServiceEvent → Option Service
  | .request path =>
    if s.health.isDegraded && !isExempt path then some s else some { s with admitted := s.admitted + 1 }
  | .response fatal =>
    if s.admitted = 0 then none
    else some { s with admitted := s.admitted - 1, health := if fatal then s.health.degrade else s.health }
  | .health => some (if s.health.isDegraded then { s with probing := s.probing + 1 } else s)
  | .probed ok =>
    if s.probing = 0 then none
    else some { s with probing := s.probing - 1, health := if ok then s.health.recover else s.health }
  | .indexing event =>
    (indexingStep s.health s.indexing event).map fun (health, indexing) => { s with health, indexing }
  | .memory event => do
    let w ← s.memory
    let (health, w) ← w.step s.health event
    return { s with health, memory := some w }

/-- No coordinator that was started is gone. -/
def Attended (s : Service) : Prop := s.indexing.isGone = false ∧ ∀ w ∈ s.memory, w.place.isGone = false

instance (s : Service) : Decidable s.Attended := inferInstanceAs (Decidable (_ ∧ _))

end Service

/-- The service, with or without embeddings and a provider. -/
def services (embeddings provider : Bool) (providerConcurrency : Nat) : Machine Service ServiceEvent where
  init s := s = .start embeddings provider providerConcurrency
  step := Service.step

-- ---------------------------------------------------------------------------
-- The loops
-- ---------------------------------------------------------------------------

/-- A healthy service has use for a coordinator. -/
theorem Place.observe_healthy : (Place.observe .healthy).isGone = false := rfl

/-- Only a degraded service is left by the indexing coordinator. -/
theorem indexingStep_healthy {health health' : HealthState} {place place' : Place} {event : IndexingEvent}
    (h : indexingStep health place event = some (health', place')) (hhealthy : health' = .healthy) :
    health = .healthy ∧ (place.isGone = false → place'.isGone = false) := by
  unfold indexingStep at h
  split at h
  case h_1 =>
    cases h
    subst hhealthy
    exact ⟨rfl, fun _ => Place.observe_healthy⟩
  case h_4 =>
    cases h
    cases hhealthy
  case h_7 =>
    cases h
    exact ⟨hhealthy, fun hgone => by cases hgone⟩
  case h_8 => cases h
  all_goals
    cases h
    exact ⟨hhealthy, fun _ => rfl⟩

namespace MemoryWorker

variable {w w' : MemoryWorker} {health health' : HealthState}

theorem claimed_healthy {result : ClaimResult} (h : w.claimed health result = (health', w'))
    (hhealthy : health' = .healthy) : health = .healthy ∧ (w.place.isGone = false → w'.place.isGone = false) := by
  unfold claimed at h
  split at h
  · cases h
    exact ⟨hhealthy, id⟩
  · cases h
    exact ⟨hhealthy, fun _ => rfl⟩
  · cases h
    exact ⟨hhealthy, fun _ => rfl⟩
  · cases h
    cases hhealthy

theorem joined_healthy {result : JoinResult} (h : w.joined health result = (health', w'))
    (hhealthy : health' = .healthy) : health = .healthy ∧ w'.place.isGone = false := by
  unfold joined at h
  cases result with
  | ok | rateLimited =>
    cases h
    exact ⟨hhealthy, rfl⟩
  | error fatal =>
    cases fatal with
    | false =>
      cases h
      exact ⟨hhealthy, rfl⟩
    | true =>
      cases h
      cases hhealthy
  | stopped =>
    cases h
    cases hhealthy

/-- Only a degraded service is left by the memory extraction coordinator. -/
theorem step_healthy {event : MemoryEvent} (h : w.step health event = some (health', w'))
    (hhealthy : health' = .healthy) : health = .healthy ∧ (w.place.isGone = false → w'.place.isGone = false) := by
  cases event with
  | observe =>
    obtain ⟨_, heq⟩ := Option.ite_none_right_eq_some.mp h
    cases heq
    subst hhealthy
    exact ⟨rfl, fun _ => Place.observe_healthy⟩
  | claimed result =>
    obtain ⟨_, heq⟩ := Option.ite_none_right_eq_some.mp h
    exact claimed_healthy (Option.some_inj.mp heq) hhealthy
  | joined result =>
    obtain ⟨_, heq⟩ := Option.ite_none_right_eq_some.mp h
    exact (joined_healthy (Option.some_inj.mp heq) hhealthy).imp_right fun hgone _ => hgone
  | leave =>
    obtain ⟨hplace, heq⟩ := Option.ite_none_right_eq_some.mp h
    cases heq
    exact ⟨hhealthy, fun hgone => by rw [hplace] at hgone; cases hgone⟩
  | full | notified | rescan =>
    obtain ⟨_, heq⟩ := Option.ite_none_right_eq_some.mp h
    cases heq
    exact ⟨hhealthy, fun _ => rfl⟩

end MemoryWorker

/-- The coordinator runs at most the tasks it was configured for, and may always run one of them. -/
structure MemoryWorker.WithinLimit (limit : Nat) (w : MemoryWorker) : Prop where
  maximum : w.maximumConcurrency = limit
  concurrency : w.concurrency ≤ limit
  jobs : w.jobs ≤ limit
  positive : 0 < limit → 0 < w.concurrency

namespace MemoryWorker.WithinLimit

variable {w w' : MemoryWorker} {health health' : HealthState} {limit : Nat}

theorem claimed (h : w.WithinLimit limit) {result : ClaimResult} (hroom : w.jobs < w.concurrency) :
    (w.claimed health result).2.WithinLimit limit := by
  obtain ⟨hmaximum, hconcurrency, hjobs, hpositive⟩ := h
  unfold MemoryWorker.claimed
  split
  · exact ⟨hmaximum, hconcurrency, Nat.lt_of_lt_of_le hroom hconcurrency, hpositive⟩
  all_goals exact ⟨hmaximum, hconcurrency, hjobs, hpositive⟩

/-- Being rate limited halves the capacity, which stays positive. -/
theorem joined (h : w.WithinLimit limit) {result : JoinResult} (hjob : w.jobs ≠ 0) :
    (w.joined health result).2.WithinLimit limit := by
  obtain ⟨hmaximum, hconcurrency, hjobs, hpositive⟩ := h
  have hfewer : w.jobs - 1 ≤ limit := Nat.le_trans (Nat.sub_le _ _) hjobs
  unfold MemoryWorker.joined
  split
  case h_3 =>
    have hhalf : max (w.concurrency / 2) 1 ≤ limit := by omega
    exact ⟨hmaximum, hhalf, hfewer, fun _ => Nat.lt_of_lt_of_le Nat.zero_lt_one (Nat.le_max_right _ _)⟩
  all_goals exact ⟨hmaximum, hconcurrency, hfewer, hpositive⟩

theorem rescan (h : w.WithinLimit limit) : w.rescan.WithinLimit limit := by
  obtain ⟨hmaximum, hconcurrency, hjobs, hpositive⟩ := h
  refine ⟨hmaximum, ?_, hjobs, fun hlimit => ?_⟩
  · exact hmaximum ▸ Nat.min_le_right _ _
  · simp only [MemoryWorker.rescan]
    omega

theorem step (h : w.WithinLimit limit) {event : MemoryEvent} (hstep : w.step health event = some (health', w')) :
    w'.WithinLimit limit := by
  cases event with
  | claimed result =>
    obtain ⟨hguard, heq⟩ := Option.ite_none_right_eq_some.mp hstep
    have hclaimed : (w.claimed health result).2.WithinLimit limit := h.claimed hguard.2
    rwa [Option.some_inj.mp heq] at hclaimed
  | joined result =>
    obtain ⟨hguard, heq⟩ := Option.ite_none_right_eq_some.mp hstep
    have hjoined : (w.joined health result).2.WithinLimit limit := h.joined hguard.2
    rwa [Option.some_inj.mp heq] at hjoined
  | rescan =>
    obtain ⟨_, heq⟩ := Option.ite_none_right_eq_some.mp hstep
    cases heq
    exact h.rescan
  | observe | full | notified | leave =>
    obtain ⟨_, heq⟩ := Option.ite_none_right_eq_some.mp hstep
    cases heq
    exact ⟨h.maximum, h.concurrency, h.jobs, h.positive⟩

end MemoryWorker.WithinLimit

-- ---------------------------------------------------------------------------
-- Health and the loops
-- ---------------------------------------------------------------------------

variable {embeddings provider : Bool} {providerConcurrency : Nat} {s s' : Service}

/-- In every reachable state the memory extraction coordinator is within its limit. -/
theorem memory_within_limit (h : (services embeddings provider providerConcurrency).Reachable s) :
    ∀ w ∈ s.memory, w.WithinLimit providerConcurrency := by
  refine h.invariant (I := fun s => ∀ w ∈ s.memory, w.WithinLimit providerConcurrency) ?_ ?_
  · rintro s rfl w hw
    simp only [Service.start] at hw
    split at hw
    · cases hw
      exact ⟨rfl, Nat.le_refl _, Nat.zero_le _, id⟩
    · cases hw
  · intro s event s' _ hs hstep
    cases event with
    | memory event =>
      obtain ⟨w, hw, hstep⟩ := Option.bind_eq_some_iff.mp hstep
      obtain ⟨⟨health, w'⟩, hmemory, heq⟩ := Option.bind_eq_some_iff.mp hstep
      cases heq
      rintro _ ⟨⟩
      exact (hs w hw).step hmemory
    | indexing event =>
      obtain ⟨_, _, rfl⟩ := Option.map_eq_some_iff.mp hstep
      exact hs
    | request | health =>
      simp only [services, Service.step] at hstep
      split at hstep
      · cases hstep
        exact hs
      · cases hstep
        exact hs
    | response | probed =>
      obtain ⟨_, heq⟩ := Option.ite_none_left_eq_some.mp hstep
      cases heq
      exact hs

/-- A probe succeeds only while no coordinator is gone. -/
def Service.Allows (s : Service) : ServiceEvent → Prop
  | .probed ok => ok = true → s.Attended
  | _ => True

instance Service.decidableAllows (s : Service) (event : ServiceEvent) : Decidable (s.Allows event) := by
  unfold Service.Allows
  split <;> infer_instance

/-- A step that the condition allows leaves a healthy service with its coordinators. -/
theorem Service.step_attended {event : ServiceEvent} (h : s.health = .healthy → s.Attended)
    (hallows : s.Allows event) (hstep : s.step event = some s') (hhealthy : s'.health = .healthy) : s'.Attended := by
  cases event with
  | request path =>
    simp only [Service.step] at hstep
    split at hstep
    · cases hstep
      exact h hhealthy
    · cases hstep
      exact h hhealthy
  | response fatal =>
    obtain ⟨_, heq⟩ := Option.ite_none_left_eq_some.mp hstep
    cases heq
    cases fatal with
    | false => exact h hhealthy
    | true => cases hhealthy
  | health =>
    simp only [Service.step] at hstep
    split at hstep
    · cases hstep
      exact h hhealthy
    · cases hstep
      exact h hhealthy
  | probed ok =>
    obtain ⟨_, heq⟩ := Option.ite_none_left_eq_some.mp hstep
    cases heq
    cases ok with
    | false => exact h hhealthy
    | true => exact hallows rfl
  | indexing event =>
    obtain ⟨⟨health, indexing⟩, hindexing, rfl⟩ := Option.map_eq_some_iff.mp hstep
    obtain ⟨hbefore, hgone⟩ := indexingStep_healthy hindexing hhealthy
    obtain ⟨hplace, hmemory⟩ := h hbefore
    exact ⟨hgone hplace, hmemory⟩
  | memory event =>
    obtain ⟨w, hw, hstep⟩ := Option.bind_eq_some_iff.mp hstep
    obtain ⟨⟨health, w'⟩, hmemory, heq⟩ := Option.bind_eq_some_iff.mp hstep
    cases heq
    obtain ⟨hbefore, hgone⟩ := MemoryWorker.step_healthy hmemory hhealthy
    obtain ⟨hplace, hworkers⟩ := h hbefore
    refine ⟨hplace, ?_⟩
    rintro _ ⟨⟩
    exact hgone (hworkers w hw)

/-- The service in which no probe succeeds while a coordinator is gone. -/
def attendedServices (embeddings provider : Bool) (providerConcurrency : Nat) : Machine Service ServiceEvent :=
  (services embeddings provider providerConcurrency).restrict Service.Allows

theorem Service.start_attended : (Service.start embeddings provider providerConcurrency).Attended := by
  refine ⟨rfl, fun w hw => ?_⟩
  simp only [Service.start] at hw
  split at hw
  · cases hw
    rfl
  · cases hw

/-- A healthy service has its coordinators in their loops, provided that no probe succeeded while one of them
    had left its loop, or was about to. -/
theorem healthy_service_attended (h : (attendedServices embeddings provider providerConcurrency).Reachable s)
    (hhealthy : s.health = .healthy) : s.indexing ≠ .left ∧ ∀ w ∈ s.memory, w.place ≠ .left := by
  have hattended : s.health = .healthy → s.Attended := by
    refine h.invariant (I := fun s => s.health = .healthy → s.Attended) ?_ ?_
    · rintro s rfl _
      exact Service.start_attended
    · intro s event s' _ hs hstep hhealthy
      obtain ⟨hallows, hstep⟩ := Machine.restrict_step.mp hstep
      exact Service.step_attended hs hallows hstep hhealthy
  obtain ⟨hindexing, hmemory⟩ := hattended hhealthy
  refine ⟨fun hleft => ?_, fun w hw hleft => ?_⟩
  · rw [hleft] at hindexing
    cases hindexing
  · have hgone := hmemory w hw
    rw [hleft] at hgone
    cases hgone

/-- When a probe succeeds while a coordinator is gone, the service is healthy without it as soon as it has left. -/
theorem recovered_unattended (hhealth : s.health = .degraded false) (hprobing : s.probing ≠ 0)
    (hgone : ¬ s.Attended) : ∃ events s',
    (services embeddings provider providerConcurrency).replay s (.probed true :: events) = some s' ∧
      s'.health = .healthy ∧ ¬ (s'.indexing ≠ .left ∧ ∀ w ∈ s'.memory, w.place ≠ .left) := by
  obtain ⟨health, indexing, memory, admitted, probing⟩ := s
  obtain rfl : health = .degraded false := hhealth
  have hrecover : (services embeddings provider providerConcurrency).step
      ⟨.degraded false, indexing, memory, admitted, probing⟩ (.probed true) =
        some ⟨.healthy, indexing, memory, admitted, probing - 1⟩ := if_neg hprobing
  simp only [Machine.replay, hrecover, Option.bind_some]
  by_cases hindexing : indexing.isGone = false
  · obtain ⟨w, hw, hworker⟩ : ∃ w ∈ memory, w.place.isGone = true := by
      refine Classical.byContradiction fun hnone => hgone ⟨hindexing, fun w hw => ?_⟩
      exact Bool.eq_false_iff.mpr fun htrue => hnone ⟨w, hw, htrue⟩
    obtain rfl : memory = some w := hw
    obtain ⟨place, jobs, concurrency, maximum⟩ := w
    cases place with
    | leaving => exact ⟨[.memory .leave], _, rfl, rfl, fun h => h.2 _ rfl rfl⟩
    | left => exact ⟨[], _, rfl, rfl, fun h => h.2 _ rfl rfl⟩
    | _ => cases hworker
  · cases indexing with
    | leaving => exact ⟨[.indexing .leave], _, rfl, rfl, fun h => h.1 rfl⟩
    | left => exact ⟨[], _, rfl, rfl, fun h => h.1 rfl⟩
    | _ => exact absurd rfl hindexing

/-- A probe recovers the service before a coordinator looks at its health. -/
def recoveredEvents : List ServiceEvent :=
  [.request "/v4/search", .indexing .observe, .response true, .health, .probed true, .memory .observe]

theorem healthy_service_attended_recovered : ∃ s,
    (attendedServices true true 8).replay (.start true true 8) recoveredEvents = some s ∧
      s.indexing ≠ .left ∧ ∀ w ∈ s.memory, w.place ≠ .left := by
  let s : Service :=
    { health := .healthy, indexing := .working, memory := some ⟨.working, 0, 8, 8⟩, admitted := 0, probing := 0 }
  have hs : (attendedServices true true 8).replay (.start true true 8) recoveredEvents = some s := by decide
  have hstart : (attendedServices true true 8).Reachable (.start true true 8) := .start rfl
  exact ⟨s, hs, healthy_service_attended (hstart.replay hs) rfl⟩

/-- Both coordinators see that the service is degraded and leave, then a probe recovers it. -/
def unattendedEvents : List ServiceEvent :=
  [.request "/v4/search", .response true, .indexing .observe, .indexing .leave, .memory .observe, .memory .leave,
    .health, .probed true]

theorem healthy_service_unattended : ∃ s, (services true true 8).Reachable s ∧ s.health = .healthy ∧
    s.indexing = .left ∧ ∀ w ∈ s.memory, w.place = .left := by
  let s : Service :=
    { health := .healthy, indexing := .left, memory := some ⟨.left, 0, 8, 8⟩, admitted := 0, probing := 0 }
  have hs : (services true true 8).replay (.start true true 8) unattendedEvents = some s := by decide
  have hstart : (services true true 8).Reachable (.start true true 8) := .start rfl
  refine ⟨s, hstart.replay hs, rfl, rfl, ?_⟩
  rintro _ ⟨⟩
  rfl

end Server
