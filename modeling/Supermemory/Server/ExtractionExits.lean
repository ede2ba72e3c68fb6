-- SUMMARY: When a run of the memory-extraction worker strands its job: the exits that return without releasing it.
import Supermemory.Server.MemoryExtractionCoordinator
import Supermemory.Storage.Extraction

/-!
# The exits of a run

A run returns with its last write, which releases the job, or without one. Three of its
exits are of the second kind: a cached result that cannot be read, a failed query of the
existing memories, and a failed write of the cache. A job whose row is extracting then
stays that way until the store is opened again.
-/

namespace Server

open Storage

variable {env : Env} {formats : Formats} {now : Time} {s s' : Extraction env}

/-- When the run returns, and with no fatal error, its job is released, unless a retry or a completion
    that it attempted has failed. -/
def LeavesNoJob (s : Extraction env) (result : Except ExtractionError Unit) : Prop :=
  (∀ error, result = .error error → error.isFatal = false) → s.failed = false →
    Released s.store.db.jobs s.job.id

/-- The run returns with an error and has made no write that releases the job. -/
def Abandons (formats : Formats) (s : Extraction env) (event : ExtractionEvent env) : Prop :=
  match s.stage, event with
  | .start, .begin => ∃ cached ∈ s.job.extractionResult, (formats.fromStr cached).isOk = false
  | .reading, .read (.error outage) => outage.error.isFatal = false
  | .caching _, .write (some outage) => outage.error.isFatal = false
  | _, _ => False

instance (s : Extraction env) : DecidablePred (Abandons formats s) := fun event => by
  unfold Abandons
  split <;> infer_instance

/-- The run is about to abandon its job, and the row of the job is extracting. -/
def Strands (formats : Formats) (s : Extraction env) (event : ExtractionEvent env) : Prop :=
  Abandons formats s event ∧ ∃ j ∈ s.store.db.jobs, j.id = s.job.id ∧ j.status = .extracting

instance (s : Extraction env) : DecidablePred (Strands formats s) := fun _ =>
  inferInstanceAs (Decidable (_ ∧ _))

-- ---------------------------------------------------------------------------
-- The invariant
-- ---------------------------------------------------------------------------

/-- The handle of a run is one of the store's, and a run ends when its retry or completion fails. -/
structure Running (s : Extraction env) : Prop where
  store : (machine env).Reachable s.store
  job : s.job ∈ s.store.memoryJobs
  failed : s.failed = true → ∃ result, s.stage = .returned result

theorem Running.row (h : Running s) : MemoryRow s.store.db.jobs s.job := memoryRow_of_reachable h.store h.job

theorem Running.issued (h : Running s) {call : Call} (hwrite : s.stage.write formats s.job = some call) :
    call.Issued s.store := by
  have hjob := h.job
  unfold Stage.write at hwrite
  split at hwrite <;> cases hwrite <;> exact ⟨by simp [Call.job], by simpa [Call.memoryJob] using hjob⟩

/-- What a call does to the store is a step of it, and the handle of the run stays among those it issued. -/
theorem Running.after (h : Running s) {call : Call} (hissued : call.Issued s.store) :
    (machine env).Reachable (s.store.after call (call.run env now s.store.db)) ∧
      s.job ∈ (s.store.after call (call.run env now s.store.db)).memoryJobs := by
  refine ⟨h.store.step (e := (now, call)) (machine_step.mpr ⟨hissued, rfl⟩), ?_⟩
  exact System.mem_after_memoryJobs h.job

namespace Stage

variable {stage : Stage env} {error : ExtractionError} {result : Except ExtractionError Unit}

/-- A retry or a completion that fails ends the run. -/
theorem replied_error (h : stage.Releases) : stage.replied formats (.error error) = .returned (.error error) := by
  cases stage with
  | completing => rfl
  | retrying kind delay message cause => rfl
  | _ => exact h.elim

theorem extracted_ne_returned {candidates : List MemoryCandidate} :
    (extracted candidates : Stage env) ≠ .returned result := by
  cases candidates <;> exact fun h => by cases h

/-- A failed reconciliation ends the run only when its error is fatal. -/
theorem fatal_of_reconciling {candidates : List MemoryCandidate} {vectors : List (EmbeddingVector env)}
    (h : (reconciling candidates vectors).replied formats (.error error) = .returned result) :
    error.isFatal = true ∧ result = .error error := by
  by_cases hfatal : error.isFatal = true
  · cases error with
    | storage error => cases hfatal
    | _ =>
      simp only [replied, if_pos hfatal] at h
      cases h
      exact ⟨hfatal, rfl⟩
  · exfalso
    cases error with
    | storage error => cases error <;> cases h
    | _ =>
      simp only [replied, if_neg hfatal] at h
      cases h

end Stage

-- ---------------------------------------------------------------------------
-- The steps of a run
-- ---------------------------------------------------------------------------

theorem Extraction.step_of_returned {result : Except ExtractionError Unit} {event : ExtractionEvent env}
    (h : s.stage = .returned result) : s.step formats now event = none := by
  cases event <;> simp [Extraction.step, h, Stage.write]

theorem Extraction.step_write {outage : Option Outage} (h : s.step formats now (.write outage) = some s') :
    ∃ call, s.stage.write formats s.job = some call ∧ s'.store = (s.reply now call outage).2 ∧
      s'.job = s.job ∧ s'.stage = s.stage.replied formats (s.reply now call outage).1 ∧
      s'.failed = (s.failed || (decide s.stage.Releases && (s.reply now call outage).1 matches .error _)) := by
  obtain ⟨call, hcall, heq⟩ := Option.bind_eq_some_iff.mp h
  cases heq
  exact ⟨call, hcall, rfl, rfl, rfl, rfl⟩

/-- A run that makes another step has had no retry or completion fail. -/
theorem Running.going {event : ExtractionEvent env} (h : Running s)
    (hstep : s.step formats now event = some s') : s.failed = false := by
  apply Bool.eq_false_iff.mpr
  intro hfailed
  obtain ⟨result, hreturned⟩ := h.failed hfailed
  cases (Extraction.step_of_returned hreturned).symm.trans hstep

theorem Running.step {event : ExtractionEvent env} (h : Running s)
    (hstep : s.step formats now event = some s') : Running s' := by
  have hgoing := h.going hstep
  have hidle {stage : Stage env} : Running { s with stage } :=
    ⟨h.store, h.job, fun hfailed => by cases hgoing.symm.trans hfailed⟩
  cases event with
  | begin =>
    obtain ⟨_, heq⟩ := Option.ite_none_right_eq_some.mp hstep
    cases heq
    exact hidle
  | read outcome =>
    obtain ⟨_, heq⟩ := Option.ite_none_right_eq_some.mp hstep
    cases heq
    exact hidle
  | extract outcome =>
    obtain ⟨_, heq⟩ := Option.ite_none_right_eq_some.mp hstep
    cases heq
    exact hidle
  | embed outcome =>
    simp only [Extraction.step] at hstep
    split at hstep
    · cases hstep
      exact hidle
    · cases hstep
  | write outage =>
    obtain ⟨call, hcall, hstore, hjob, hstage, hfailed⟩ := Extraction.step_write hstep
    have hafter : (machine env).Reachable s'.store ∧ s'.job ∈ s'.store.memoryJobs := by
      rw [hstore, hjob]
      cases outage with
      | none => exact h.after (h.issued hcall)
      | some outage => exact ⟨h.store, h.job⟩
    refine ⟨hafter.1, hafter.2, fun hnow => ?_⟩
    rw [hfailed, hgoing] at hnow
    cases hreply : (s.reply now call outage).1 with
    | ok answer => simp [hreply] at hnow
    | error error =>
      rw [hreply] at hstage
      have hreleases : s.stage.Releases := by simpa [hreply] using hnow
      exact ⟨_, hstage.trans (Stage.replied_error hreleases)⟩
  | elsewhere call =>
    simp only [Extraction.step] at hstep
    split at hstep
    · cases hstep
    · obtain ⟨hissued, heq⟩ := Option.ite_none_right_eq_some.mp hstep
      cases heq
      obtain ⟨hreachable, hjob⟩ := h.after hissued
      exact ⟨hreachable, hjob, fun hfailed => by cases hgoing.symm.trans hfailed⟩

theorem running_of_reachable (h : (extractions env formats).Reachable s) : Running s := by
  apply h.invariant
  · rintro s ⟨hstore, hjob, _, hfailed⟩
    exact ⟨hstore, hjob, fun h => by cases hfailed.symm.trans h⟩
  · intro s event s' _ hrunning hstep
    exact hrunning.step hstep

-- ---------------------------------------------------------------------------
-- Writes that release the job
-- ---------------------------------------------------------------------------

section Writes

variable {db : Database} {m : ClaimedMemoryJob} {answer : Answer}

theorem released_of_complete (h : MemoryRow db.jobs m)
    (hok : ((Call.completeMemoryJob m).run env now db).1 = .ok answer) :
    Released ((Call.completeMemoryJob m).run env now db).2.jobs m.id := by
  simp only [Call.run] at hok ⊢
  cases hr : completeMemoryJob m db with
  | error e =>
    rw [hr] at hok
    cases hok
  | ok db' => exact h.completed hr

theorem released_of_retry {kind message : String} {delay : Option Nat} (h : MemoryRow db.jobs m)
    (hok : ((Call.retryMemoryJob m kind message delay).run env now db).1 = .ok answer) :
    Released ((Call.retryMemoryJob m kind message delay).run env now db).2.jobs m.id := by
  simp only [Call.run] at hok ⊢
  cases hr : retryMemoryJob now m kind message delay db with
  | error e =>
    rw [hr] at hok
    cases hok
  | ok db' => exact h.retried hr

theorem released_of_reconcile {batch : Batch} {expectedRevision : Option Nat} {proposals : List MemoryProposal}
    (hok : ((Call.reconcileMemories batch expectedRevision (some m) proposals).run env now db).1 = .ok answer) :
    Released ((Call.reconcileMemories batch expectedRevision (some m) proposals).run env now db).2.jobs m.id := by
  simp only [Call.run, Option.map_some] at hok ⊢
  cases hr : reconcileMemoriesFor env now batch expectedRevision (some m.id) proposals db with
  | error e =>
    rw [hr] at hok
    cases hok
  | ok r => exact MemoryRow.reconciled hr

theorem released_of_stale_cache {result : String} {error : StorageError} (h : MemoryRow db.jobs m)
    (herror : ((Call.cacheMemoryExtraction m result).run env now db).1 = .error error) :
    Released ((Call.cacheMemoryExtraction m result).run env now db).2.jobs m.id := by
  simp only [Call.run] at herror ⊢
  cases hr : (cacheMemoryExtraction m result db).1 with
  | error e => exact h.cached hr
  | ok _ =>
    rw [hr] at herror
    cases herror

end Writes

-- ---------------------------------------------------------------------------
-- The return of a run
-- ---------------------------------------------------------------------------

section Return

variable {event : ExtractionEvent env} {result : Except ExtractionError Unit}

/-- A run that abandons its job returns at once, and the store stays as it is. -/
theorem Abandons.step (h : Abandons formats s event) (hstep : s.step formats now event = some s') :
    ∃ error, s'.stage = .returned (.error error) ∧ error.isFatal = false ∧ s'.store = s.store ∧
      s'.job = s.job ∧ s'.failed = s.failed := by
  unfold Abandons at h
  split at h
  · rename_i hstage
    obtain ⟨_, heq⟩ := Option.ite_none_right_eq_some.mp hstep
    cases heq
    obtain ⟨cached, hcached, hinvalid⟩ := h
    cases hfrom : formats.fromStr cached with
    | error message =>
      refine ⟨.cachedExtraction message, ?_, rfl, rfl, rfl, rfl⟩
      simp only [Stage.begun, Option.mem_def.mp hcached, hfrom]
    | ok candidates =>
      rw [hfrom] at hinvalid
      cases hinvalid
  · rename_i outage hstage
    obtain ⟨_, heq⟩ := Option.ite_none_right_eq_some.mp hstep
    cases heq
    exact ⟨outage.error, rfl, h, rfl, rfl, rfl⟩
  · rename_i candidates outage hstage
    obtain ⟨call, _, hstore, hjob, hstage', hfailed⟩ := Extraction.step_write hstep
    refine ⟨outage.error, ?_, h, hstore, hjob, ?_⟩
    · rw [hstage', hstage]
      rfl
    · have hreleases : ¬ s.stage.Releases := by
        rw [hstage]
        exact id
      rw [hfailed, decide_eq_false hreleases, Bool.false_and, Bool.or_false]
  · exact h.elim

/-- The write failed and nothing was written: the run goes on, or its error is fatal, or a retry or a
    completion has failed. -/
theorem Extraction.outage_goes_on {outage : Outage} (hkept : ¬ Abandons formats s (.write (some outage)))
    (hstep : s.step formats now (.write (some outage)) = some s') (hreturned : s'.stage = .returned result)
    (hfatal : ∀ error, result = .error error → error.isFatal = false) : s'.failed = true := by
  obtain ⟨call, hcall, _, _, hreplied, hfailed⟩ := Extraction.step_write hstep
  rw [hreplied] at hreturned
  by_cases hreleases : s.stage.Releases
  · rw [hfailed, decide_eq_true hreleases, Bool.true_and]
    exact Bool.or_true _
  exfalso
  cases hstage : s.stage with
  | caching candidates =>
    rw [hstage] at hreturned
    cases hreturned
    apply hkept
    simp only [Abandons, hstage]
    exact hfatal _ rfl
  | reconciling candidates vectors =>
    rw [hstage] at hreturned
    obtain ⟨hfatal', rfl⟩ := Stage.fatal_of_reconciling hreturned
    cases (hfatal _ rfl).symm.trans hfatal'
  | completing => exact hreleases (hstage ▸ trivial)
  | retrying kind delay message error => exact hreleases (hstage ▸ trivial)
  | _ =>
    rw [hstage] at hcall
    cases hcall

theorem Running.leavesNoJob_write {outage : Option Outage} (h : Running s)
    (hkept : ¬ Abandons formats s (.write outage)) (hstep : s.step formats now (.write outage) = some s')
    (hreturned : s'.stage = .returned result) : LeavesNoJob s' result := by
  intro hfatal hsucceeded
  cases outage with
  | some outage => cases hsucceeded.symm.trans (Extraction.outage_goes_on hkept hstep hreturned hfatal)
  | none =>
    obtain ⟨call, hcall, hstore, hjob, hreplied, hfailed⟩ := Extraction.step_write hstep
    simp only [Extraction.reply] at hstore hreplied hfailed
    rw [hreplied] at hreturned
    rw [hjob, hstore, System.after_db]
    cases hstage : s.stage with
    | caching candidates =>
      rw [hstage] at hcall hreturned
      cases hcall
      cases hr : ((Call.cacheMemoryExtraction s.job (formats.toString candidates)).run env now s.store.db).1 with
      | error e => exact released_of_stale_cache h.row hr
      | ok answer =>
        rw [hr] at hreturned
        cases Stage.extracted_ne_returned hreturned
    | reconciling candidates vectors =>
      rw [hstage] at hcall hreturned
      cases hcall
      generalize hwrite : Call.reconcileMemories _ _ _ _ = call at hreturned ⊢
      cases hr : (call.run env now s.store.db).1 with
      | error e =>
        rw [hr] at hreturned
        cases (Stage.fatal_of_reconciling hreturned).1
      | ok answer =>
        subst hwrite
        exact released_of_reconcile hr
    | completing =>
      rw [hstage] at hcall
      cases hcall
      cases hr : ((Call.completeMemoryJob s.job).run env now s.store.db).1 with
      | error e =>
        rw [hfailed, hr, hstage] at hsucceeded
        cases (Bool.or_eq_false_iff.mp hsucceeded).2
      | ok answer => exact released_of_complete h.row hr
    | retrying kind delay message error =>
      rw [hstage] at hcall
      cases hcall
      cases hr : ((Call.retryMemoryJob s.job kind message delay).run env now s.store.db).1 with
      | error e =>
        rw [hfailed, hr, hstage] at hsucceeded
        cases (Bool.or_eq_false_iff.mp hsucceeded).2
      | ok answer => exact released_of_retry h.row hr
    | _ =>
      rw [hstage] at hcall
      cases hcall

/-- A run that does not abandon its job returns when a write has released it, after a fatal error, or with
    a retry or a completion that has failed. -/
theorem Running.leavesNoJob (h : Running s) (hkept : ¬ Abandons formats s event)
    (hstep : s.step formats now event = some s') (hreturned : s'.stage = .returned result) :
    LeavesNoJob s' result := by
  intro hfatal hsucceeded
  cases event with
  | begin =>
    obtain ⟨hstage, heq⟩ := Option.ite_none_right_eq_some.mp hstep
    cases heq
    exfalso
    simp only [Stage.begun] at hreturned
    split at hreturned
    · cases hreturned
    · rename_i cached hcached
      split at hreturned
      · rename_i message hfrom
        apply hkept
        simp only [Abandons, hstage]
        exact ⟨cached, hcached, congrArg Except.isOk hfrom⟩
      · cases (Stage.extracted_ne_returned hreturned)
  | read outcome =>
    obtain ⟨hstage, heq⟩ := Option.ite_none_right_eq_some.mp hstep
    cases heq
    cases outcome with
    | error outage =>
      cases hreturned
      exfalso
      apply hkept
      simp only [Abandons, hstage]
      exact hfatal _ rfl
    | ok _ => cases hreturned
  | extract outcome =>
    obtain ⟨_, heq⟩ := Option.ite_none_right_eq_some.mp hstep
    cases heq
    cases outcome <;> cases hreturned
  | embed outcome =>
    simp only [Extraction.step] at hstep
    split at hstep
    · cases hstep
      cases outcome <;> cases hreturned
    · cases hstep
  | write outage =>
    exact h.leavesNoJob_write hkept hstep hreturned hfatal hsucceeded
  | elsewhere call =>
    simp only [Extraction.step] at hstep
    split at hstep
    · cases hstep
    · rename_i hgoing
      obtain ⟨_, heq⟩ := Option.ite_none_right_eq_some.mp hstep
      cases heq
      exact absurd hreturned (hgoing result)

/-- A step that abandons the job strands it exactly when its row is extracting. -/
theorem Running.strands_iff (h : Running s) (hstep : s.step formats now event = some s')
    (hreturned : s'.stage = .returned result) : LeavesNoJob s' result ↔ ¬ Strands formats s event := by
  by_cases habandons : Abandons formats s event
  · obtain ⟨error, herror, hfatal, hstore, hjob, hfailed⟩ := habandons.step hstep
    cases herror.symm.trans hreturned
    have hleaves : LeavesNoJob s' (.error error) ↔ Released s.store.db.jobs s.job.id := by
      rw [LeavesNoJob, hstore, hjob, hfailed]
      constructor
      · intro hreleased
        exact hreleased (fun _ heq => by cases heq; exact hfatal) (h.going hstep)
      · intro hreleased _ _
        exact hreleased
    rw [hleaves, h.row.released_iff, Strands]
    constructor
    · rintro hnone ⟨_, j, hj, hid, hextracting⟩
      exact hnone j hj hid hextracting
    · intro hnone j hj hid hextracting
      exact hnone ⟨habandons, j, hj, hid, hextracting⟩
  · constructor
    · intro _ hstrands
      exact habandons hstrands.1
    · intro _
      exact h.leavesNoJob habandons hstep hreturned

/-- Nothing follows a step that strands the job. -/
theorem Strands.returns (h : Strands formats s event) (hstep : s.step formats now event = some s') :
    ∃ result, s'.stage = .returned result := by
  obtain ⟨error, herror, _⟩ := h.1.step hstep
  exact ⟨_, herror⟩

end Return

/-- A run that has returned has left no job extracting, exactly when it has not stranded its job. -/
theorem extraction_strands_no_job {s₀ : Extraction env} {events : List (Time × ExtractionEvent env)}
    {result : Except ExtractionError Unit} (hinit : (extractions env formats).init s₀)
    (hrun : (extractions env formats).replay s₀ events = some s) (hreturned : s.stage = .returned result) :
    LeavesNoJob s result ↔
      (extractions env formats).occurrences (fun s event => Strands formats s event.2) s₀ events = 0 := by
  have hgoing : ∀ result, s₀.stage ≠ .returned result := by
    intro result hstage
    cases hinit.2.2.1.symm.trans hstage
  have hs := Machine.Reachable.start hinit
  clear hinit
  induction events generalizing s₀ with
  | nil =>
    obtain rfl : s₀ = s := by simpa [Machine.replay] using hrun
    exact absurd hreturned (hgoing result)
  | cons event rest ih =>
    obtain ⟨t, hstep, hrest⟩ := Option.bind_eq_some_iff.mp hrun
    simp only [Machine.occurrences, hstep]
    by_cases hended : ∃ result, t.stage = .returned result
    · obtain ⟨last, hlast⟩ := hended
      cases rest with
      | cons next _ =>
        obtain ⟨_, hnext, _⟩ := Option.bind_eq_some_iff.mp hrest
        cases (Extraction.step_of_returned hlast).symm.trans hnext
      | nil =>
        obtain rfl : t = s := by simpa [Machine.replay] using hrest
        rw [(running_of_reachable hs).strands_iff hstep hreturned]
        by_cases hstrands : Strands formats s₀ event.2 <;> simp [hstrands, Machine.occurrences]
    · have hkept : ¬ Strands formats s₀ event.2 := fun h => hended (h.returns hstep)
      rw [if_neg hkept, Nat.zero_add]
      exact ih hrest (fun result hstage => hended ⟨result, hstage⟩) (hs.step hstep)

/-- The formats of a run in which the provider never answers with a candidate. -/
def noCandidates : Formats where
  toString _ := "[]"
  fromStr text := if text = "[]" then .ok [] else .error "expected value"
  describe _ := "stale revision"

/-- The store in which a worker has claimed the memory job of a document. -/
def claimedOnce : Option System :=
  let job : ClaimedJob := ⟨"xx", "x", "a fact", 1⟩
  afterCalls [.openStorage, .upsertDocument "" (upsertOf "a fact"), .claimJob, .markJobStage job .chunking,
    .markJobStage job .embedding, .completeEmbeddedJobWithMemoryExtraction job [] "model" 768,
    .claimMemoryJob]

/-- The worker has the job in hand. -/
def handed (store : System) : Extraction unaryEnv := ⟨store, memoryHandle 1, .start, false⟩

theorem handed_init {store : System} (h : claimedOnce = some store) :
    (extractions unaryEnv noCandidates).init (handed store) := by
  have hclaimed : ∀ store ∈ claimedOnce, memoryHandle 1 ∈ store.memoryJobs := by decide +kernel
  exact ⟨afterCalls_reachable h, hclaimed store h, rfl, rfl⟩

/-- The provider cannot be reached, and the job is queued again. -/
def unreachableProvider : List (Time × ExtractionEvent unaryEnv) :=
  [.begin, .read (.ok ()), .extract (.error (.transport, "reset")), .write none].map (63871286400, ·)

/-- The database is locked when the existing memories are read. -/
def lockedDatabase : List (Time × ExtractionEvent unaryEnv) :=
  [.begin, .read (.error (.sqlite false "database is locked"))].map (63871286400, ·)

theorem extraction_strands_no_job_unreachableProvider : ∃ store s, claimedOnce = some store ∧
    (extractions unaryEnv noCandidates).replay (handed store) unreachableProvider = some s ∧
    LeavesNoJob s (.error (.provider .transport "reset")) := by
  obtain ⟨store, hstore⟩ : ∃ store, claimedOnce = some store := Option.isSome_iff_exists.mp (by decide +kernel)
  have hruns : ∀ store ∈ claimedOnce,
      ∃ s ∈ (extractions unaryEnv noCandidates).replay (handed store) unreachableProvider,
        s.stage = .returned (.error (.provider .transport "reset")) := by
    decide +kernel
  have hnone : ∀ store ∈ claimedOnce, (extractions unaryEnv noCandidates).occurrences
      (fun s event => Strands noCandidates s event.2) (handed store) unreachableProvider = 0 := by
    decide +kernel
  obtain ⟨s, hrun, hreturned⟩ := hruns store hstore
  exact ⟨store, s, hstore, hrun,
    (extraction_strands_no_job (handed_init hstore) hrun hreturned).mpr (hnone store hstore)⟩

/-- The run returns without a write, and the job stays extracting. -/
theorem extraction_strands_job : ∃ s₀ s result, (extractions unaryEnv noCandidates).init s₀ ∧
    (extractions unaryEnv noCandidates).replay s₀ lockedDatabase = some s ∧ s.stage = .returned result ∧
    ¬ LeavesNoJob s result := by
  obtain ⟨store, hstore⟩ : ∃ store, claimedOnce = some store := Option.isSome_iff_exists.mp (by decide +kernel)
  have hruns : ∀ store ∈ claimedOnce,
      ∃ s ∈ (extractions unaryEnv noCandidates).replay (handed store) lockedDatabase,
        s.stage = .returned (.error (.sqlite false "database is locked")) ∧ s.failed = false ∧
          ∃ j ∈ s.store.db.jobs, j.id = s.job.id ∧ j.status = .extracting := by
    decide +kernel
  obtain ⟨s, hrun, hreturned, hfailed, j, hj, hid, hextracting⟩ := hruns store hstore
  refine ⟨handed store, s, _, handed_init hstore, hrun, hreturned, ?_⟩
  intro hleaves
  rcases hleaves (fun _ heq => by cases heq; rfl) hfailed j hj hid with hdone | hfailed | hqueued
  · cases hextracting.symm.trans hdone
  · cases hextracting.symm.trans hfailed
  · cases hextracting.symm.trans hqueued

end Server
