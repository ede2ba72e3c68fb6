-- SUMMARY: How often a job is claimed: once for a document job between two openings, and boundedly often for a memory job.
import Mathlib.Order.Interval.Finset.Nat
import Supermemory.Library.Loop
import Supermemory.Storage.JobSteps
import Supermemory.Storage.MemoryRows

/-!
# Attempts

The row of a job counts its claims. A retry decides by the count that its handle carries
whether the job is queued again, and every handle carries a different one. So the number of
retries that queue a job again is bounded by the number of counts below the limit.
-/

namespace Storage

variable {env : Env} {now : Time} {db db' : Database} {s s' : System} {call : Call}

-- ---------------------------------------------------------------------------
-- Claims
-- ---------------------------------------------------------------------------

/-- How often the job was ever claimed. -/
def claimsOf (s : System) (kind : JobKind) (id : String) : Nat :=
  match kind with
  | .document => s.jobs.countP fun job => job.id = id
  | .memory => s.memoryJobs.countP fun job => job.id = id

theorem claimsOf_after (s : System) (call : Call) (r : Except StorageError Answer × Database) (kind : JobKind) (id : String) :
    claimsOf (s.after call r) kind id = claimsOf s kind id + if handedBy r.1 = some (kind, id) then 1 else 0 := by
  obtain ⟨e | answer, db⟩ := r
  · cases kind <;> rfl
  · unfold claimsOf
    cases answer with
    | claimed job =>
      cases job with
      | none => cases kind <;> rfl
      | some job => cases kind <;> simp [System.after, handedBy, Except.toOption, Answer.handed, List.countP_cons]
    | claimedMemory job =>
      cases job with
      | none => cases kind <;> rfl
      | some job => cases kind <;> simp [System.after, handedBy, Except.toOption, Answer.handed, List.countP_cons]
    | _ => cases kind <;> rfl

/-- The row that a call hands out is stored and queued. -/
theorem Call.handed_row {kind : JobKind} {id : String} (h : handedBy (call.run env now db).1 = some (kind, id)) :
    ∃ j ∈ db.jobs, j.id = id ∧ j.kind = kind ∧ j.status = .queued := by
  cases hr : (call.run env now db).1 with
  | error e =>
    rw [hr] at h
    cases h
  | ok answer =>
    rw [hr] at h
    cases answer with
    | claimed job =>
      cases job with
      | none => cases h
      | some job =>
        cases h
        exact Call.answer_queued hr rfl
    | claimedMemory job =>
      cases job with
      | none => cases h
      | some job =>
        cases h
        exact Call.answer_memoryQueued hr rfl
    | _ => cases h

/-- A job that was never drawn was never claimed. -/
theorem Consistent.claimsOf_eq_zero (h : Consistent env s) {kind : JobKind} {id : String} (hid : ¬ Drawn env s.db id) :
    claimsOf s kind id = 0 := by
  unfold claimsOf
  cases kind with
  | document =>
    apply List.countP_eq_zero.mpr
    intro job hjob hsame
    exact hid (of_decide_eq_true hsame ▸ (h.handleDrawn job hjob).1)
  | memory =>
    apply List.countP_eq_zero.mpr
    intro job hjob hsame
    exact hid (of_decide_eq_true hsame ▸ h.memoryHandleDrawn job hjob)

/-- The attempts of a row are the claims of its job. -/
def Counted (s : System) : Prop := ∀ j ∈ s.db.jobs, j.attempts = claimsOf s j.kind j.id

theorem Counted.after (h : Counted s) (hs : Consistent env s) :
    Counted (s.after call (call.run env now s.db)) := by
  intro j hj
  rw [System.after_db] at hj
  rw [claimsOf_after]
  rcases call.movesRows env now s.db j hj with ⟨hnew, hzero⟩ | ⟨i, hi, hid, hkind, hmoves⟩
  · have hother : handedBy (call.run env now s.db).1 ≠ some (j.kind, j.id) := by
      intro hhanded
      obtain ⟨i, hi, hid, _⟩ := Call.handed_row hhanded
      exact hnew (hid ▸ hs.jobDrawn i hi)
    rw [hs.claimsOf_eq_zero hnew, if_neg hother, hzero]
  · rw [← hid, ← hkind, ← h i hi]
    cases hmoves with
    | claimed hhanded _ _ hattempts => rw [if_pos hhanded, hattempts]
    | kept hhanded hattempts _ => rw [if_neg hhanded, hattempts, Nat.add_zero]

theorem counted_of_reachable (h : (machine env).Reachable s) : Counted s := by
  apply h.invariant
  · rintro _ ⟨organizations, rfl⟩ j hj
    cases hj
  · intro s event s' hs hcounted hstep
    obtain ⟨hissued, rfl⟩ := machine_step.mp hstep
    exact hcounted.after (consistent_of_reachable hs)

-- ---------------------------------------------------------------------------
-- Between two openings
-- ---------------------------------------------------------------------------

/-- The store while one process has it open, the handles of that process, and those that were used for a retry. -/
structure Process where
  store : System
  jobs : List ClaimedJob
  memoryJobs : List ClaimedMemoryJob
  retried : List ClaimedMemoryJob
  deriving DecidableEq

/-- The handle that a call uses for a retry. -/
def Call.retries : Call → Option ClaimedMemoryJob
  | .retryMemoryJob job _ _ _ => some job
  | _ => none

theorem Call.memoryJob_of_retries {job : ClaimedMemoryJob} (h : call.retries = some job) : call.memoryJob = some job := by
  cases call with
  | retryMemoryJob => exact h
  | _ => cases h

/-- The call uses a handle of this process, and no handle for a second retry. -/
def Call.Usable (s : Process) (call : Call) : Prop :=
  call ≠ .openStorage ∧ (∀ job ∈ call.job, job ∈ s.jobs) ∧ (∀ job ∈ call.memoryJob, job ∈ s.memoryJobs) ∧
    ∀ job ∈ call.retries, job ∉ s.retried

instance (s : Process) (call : Call) : Decidable (call.Usable s) := inferInstanceAs (Decidable (_ ∧ _))

/-- The process after a call. -/
def Process.after (s : Process) (call : Call) (r : Except StorageError Answer × Database) : Process :=
  { store := s.store.after call r
    jobs := (r.1.toOption.bind Answer.job).toList ++ s.jobs
    memoryJobs := (r.1.toOption.bind Answer.memoryJob).toList ++ s.memoryJobs
    retried := call.retries.toList ++ s.retried }

/-- The store after an opening, up to the next one. -/
def processes (env : Env) : Machine Process (Time × Call) where
  init s := ∃ before now orgId db, (machine env).Reachable before ∧ openStorage env now before.db = .ok (orgId, db) ∧
    s = ⟨before.after .openStorage (.ok (.opened orgId), db), [], [], []⟩
  step s event :=
    if event.2.Usable s then some (s.after event.2 (event.2.run env event.1 s.store.db)) else none

/-- How often the process claimed the memory job. -/
def Process.claims (s : Process) (id : String) : Nat := s.memoryJobs.countP fun job => job.id = id

/-- How many handles were used for a retry that may queue the memory job again. -/
def Process.requeues (s : Process) (id : String) : Nat :=
  s.retried.countP fun job => job.id = id ∧ job.attempts < maxAttempts

/-- The attempts of a job, none for one that is not stored. -/
def attemptsAt (db : Database) (id : String) : Nat := ((db.jobs.find id).map Job.attempts).getD 0

theorem processes_step {s s' : Process} {event : Time × Call} : (processes env).step s event = some s' ↔
    event.2.Usable s ∧ s' = s.after event.2 (event.2.run env event.1 s.store.db) := by
  simp only [processes]
  split <;> simp_all [eq_comm]

-- ---------------------------------------------------------------------------
-- Handles of a call
-- ---------------------------------------------------------------------------

theorem handedBy_document {r : Except StorageError Answer} {id : String} :
    handedBy r = some (.document, id) ↔ ∃ job ∈ r.toOption.bind Answer.job, job.id = id := by
  unfold handedBy
  cases r.toOption with
  | none => simp
  | some answer => cases answer <;> simp [Answer.handed, Answer.job]

theorem handedBy_memory {r : Except StorageError Answer} {id : String} :
    handedBy r = some (.memory, id) ↔ ∃ job ∈ r.toOption.bind Answer.memoryJob, job.id = id := by
  unfold handedBy
  cases r.toOption with
  | none => simp
  | some answer => cases answer <;> simp [Answer.handed, Answer.memoryJob]

theorem System.new_job {s : System} {r : Except StorageError Answer × Database} {job : ClaimedJob}
    (h : r.1.toOption.bind Answer.job = some job) : job ∈ (s.after call r).jobs := by
  obtain ⟨e | answer, db⟩ := r
  · cases h
  · cases answer with
    | claimed claimed =>
      obtain rfl : claimed = some job := h
      exact List.mem_cons_self
    | _ => cases h

theorem System.new_memoryJob {s : System} {r : Except StorageError Answer × Database} {job : ClaimedMemoryJob}
    (h : r.1.toOption.bind Answer.memoryJob = some job) : job ∈ (s.after call r).memoryJobs := by
  obtain ⟨e | answer, db⟩ := r
  · cases h
  · cases answer with
    | claimedMemory claimed =>
      obtain rfl : claimed = some job := h
      exact List.mem_cons_self
    | _ => cases h

theorem Process.claims_after (s : Process) (call : Call) (r : Except StorageError Answer × Database) (id : String) :
    (s.after call r).claims id = s.claims id + if handedBy r.1 = some (.memory, id) then 1 else 0 := by
  simp only [Process.claims, Process.after, List.countP_append, handedBy_memory]
  cases r.1.toOption.bind Answer.memoryJob with
  | none => simp
  | some job => simp [List.countP_cons, Nat.add_comm]

/-- The handle of a memory job carries the attempts of its row, with the claim counted. -/
theorem claimMemoryJob_attempts {m : ClaimedMemoryJob} (h : claimMemoryJob now db = .ok (some m, db')) :
    ∃ j ∈ db.jobs, j.id = m.id ∧ j.kind = .memory ∧ m.attempts = j.attempts + 1 := by
  unfold claimMemoryJob at h
  split at h
  · cases h
  · rename_i j d hnext
    obtain ⟨hj, _, _, hkind, _⟩ := nextJob_some hnext
    simp only at h
    split at h
    · cases h
    · cases h
      exact ⟨j, hj, rfl, hkind, rfl⟩

-- ---------------------------------------------------------------------------
-- The invariant
-- ---------------------------------------------------------------------------

/-- The attempts that the handles of a memory job carry, the newest first. -/
def Process.carried (s : Process) (id : String) : List Nat :=
  (s.memoryJobs.filter fun job => job.id = id).map ClaimedMemoryJob.attempts

/-- What holds while a process has the store open, since the database was `start`. -/
structure Paced (env : Env) (start : Database) (s : Process) : Prop where
  reachable : (machine env).Reachable s.store
  drawn : start.idsDrawn ≤ s.store.db.idsDrawn
  issued : ∀ job ∈ s.jobs, job ∈ s.store.jobs
  issuedMemory : ∀ job ∈ s.memoryJobs, job ∈ s.store.memoryJobs
  once : (s.jobs.map ClaimedJob.id).Nodup
  started : ∀ job ∈ s.jobs, ∀ j ∈ s.store.db.jobs, j.id = job.id → j.status ≠ .queued
  retriedIssued : ∀ job ∈ s.retried, job ∈ s.memoryJobs
  retriedOnce : s.retried.Nodup
  rows : ∀ j ∈ s.store.db.jobs, j.kind = .memory → j.attempts = attemptsAt start j.id + s.claims j.id
  carried : ∀ id, s.carried id = (List.range' (attemptsAt start id + 1) (s.claims id)).reverse
  queued : ∀ j ∈ s.store.db.jobs, j.kind = .memory → j.status = .queued → s.claims j.id ≤ s.requeues j.id
  paced : ∀ id, s.claims id ≤ s.requeues id + 1

namespace Paced

variable {start : Database} {s : Process}

/-- Every retry that queues a job again uses a handle with another count below the limit. -/
theorem requeues_le (h : Paced env start s) (id : String) : s.requeues id ≤ maxAttempts - 1 - attemptsAt start id := by
  let spent := s.retried.filter fun job => job.id = id ∧ job.attempts < maxAttempts
  have hspent {job : ClaimedMemoryJob} (hjob : job ∈ spent) :
      job ∈ s.memoryJobs.filter (fun job => job.id = id) ∧ job.attempts < maxAttempts := by
    obtain ⟨hretried, hguard⟩ := List.mem_filter.mp hjob
    have hguard := of_decide_eq_true hguard
    exact ⟨List.mem_filter.mpr ⟨h.retriedIssued job hretried, decide_eq_true hguard.1⟩, hguard.2⟩
  have hdistinct : (s.carried id).Nodup := by
    rw [h.carried id]
    exact List.nodup_reverse.mpr List.nodup_range'
  have hnodup : (spent.map ClaimedMemoryJob.attempts).Nodup := by
    apply List.Nodup.map_on _ (h.retriedOnce.filter _)
    exact fun job hjob job' hjob' => List.inj_on_of_nodup_map hdistinct (hspent hjob).1 (hspent hjob').1
  have hrange : (spent.map ClaimedMemoryJob.attempts).toFinset ⊆ Finset.Ioo (attemptsAt start id) maxAttempts := by
    intro count hcount
    obtain ⟨job, hjob, rfl⟩ := List.mem_map.mp (List.mem_toFinset.mp hcount)
    obtain ⟨hissued, hlast⟩ := hspent hjob
    have hcarried : job.attempts ∈ s.carried id := List.mem_map_of_mem hissued
    rw [h.carried id, List.mem_reverse, List.mem_range'_1] at hcarried
    exact Finset.mem_Ioo.mpr ⟨hcarried.1, hlast⟩
  calc s.requeues id
    _ = (spent.map ClaimedMemoryJob.attempts).length := by
      rw [Process.requeues, List.countP_eq_length_filter, List.length_map]
    _ = (spent.map ClaimedMemoryJob.attempts).toFinset.card := (List.toFinset_card_of_nodup hnodup).symm
    _ ≤ (Finset.Ioo (attemptsAt start id) maxAttempts).card := Finset.card_le_card hrange
    _ = maxAttempts - 1 - attemptsAt start id := by
      rw [Nat.card_Ioo]
      omega

theorem consistent (h : Paced env start s) : Consistent env s.store := consistent_of_reachable h.reachable

/-- A job that was never drawn has no handle. -/
theorem claims_eq_zero (h : Paced env start s) {id : String} (hid : ¬ Drawn env s.store.db id) : s.claims id = 0 := by
  apply List.countP_eq_zero.mpr
  intro job hjob hsame
  exact hid (of_decide_eq_true hsame ▸ h.consistent.memoryHandleDrawn job (h.issuedMemory job hjob))

/-- A job that is drawn later has no row at the start. -/
theorem attemptsAt_eq_zero (h : Paced env start s) (hstart : ∀ j ∈ start.jobs, Drawn env start j.id) {id : String}
    (hid : ¬ Drawn env s.store.db id) : attemptsAt start id = 0 := by
  unfold attemptsAt
  cases hfind : start.jobs.find id with
  | none => rfl
  | some j =>
    have hdrawn := hstart j (Table.find_mem hfind)
    rw [Table.find_key hfind] at hdrawn
    exact absurd (hdrawn.mono h.drawn) hid

theorem call_issued (h : Paced env start s) (husable : call.Usable s) : call.Issued s.store :=
  ⟨fun job hjob => h.issued job (husable.2.1 job hjob), fun job hjob => h.issuedMemory job (husable.2.2.1 job hjob)⟩

/-- A call hands out a job that is stored. -/
theorem handed_drawn (h : Paced env start s) {kind : JobKind} {id : String}
    (hhanded : handedBy (call.run env now s.store.db).1 = some (kind, id)) : Drawn env s.store.db id := by
  obtain ⟨j, hj, rfl, _⟩ := Call.handed_row hhanded
  exact h.consistent.jobDrawn j hj

theorem rows_after (h : Paced env start s) (hstart : ∀ j ∈ start.jobs, Drawn env start j.id) {j : Job}
    (hj : j ∈ (call.run env now s.store.db).2.jobs) (hkind : j.kind = .memory) :
    j.attempts = attemptsAt start j.id + (s.after call (call.run env now s.store.db)).claims j.id := by
  rw [Process.claims_after]
  rcases call.movesRows env now s.store.db j hj with ⟨hnew, hzero⟩ | ⟨i, hi, hid, hsame, hmoves⟩
  · have hother : handedBy (call.run env now s.store.db).1 ≠ some (.memory, j.id) := fun hhanded =>
      hnew (h.handed_drawn hhanded)
    rw [h.claims_eq_zero hnew, h.attemptsAt_eq_zero hstart hnew, if_neg hother, hzero]
  · have hcounted := h.rows i hi (hsame.trans hkind)
    rw [← hid, ← hkind, ← hsame]
    cases hmoves with
    | claimed hhanded _ _ hattempts =>
      rw [if_pos hhanded]
      omega
    | kept hhanded hattempts _ =>
      rw [if_neg hhanded]
      omega

theorem requeues_mono (s : Process) (call : Call) (r : Except StorageError Answer × Database) (id : String) :
    s.requeues id ≤ (s.after call r).requeues id := by
  simp only [Process.requeues, Process.after, List.countP_append]
  omega

/-- A job that is queued after a call was queued before, or a handle was used to queue it. -/
theorem queued_after (h : Paced env start s) (husable : call.Usable s) {j : Job}
    (hj : j ∈ (call.run env now s.store.db).2.jobs) (hkind : j.kind = .memory) (hqueued : j.status = .queued) :
    (s.after call (call.run env now s.store.db)).claims j.id ≤
      (s.after call (call.run env now s.store.db)).requeues j.id := by
  have hmono := requeues_mono s call (call.run env now s.store.db) j.id
  rw [Process.claims_after]
  rcases call.movesRows env now s.store.db j hj with ⟨hnew, _⟩ | ⟨i, hi, hid, hsame, hmoves⟩
  · have hother : handedBy (call.run env now s.store.db).1 ≠ some (.memory, j.id) := fun hhanded =>
      hnew (h.handed_drawn hhanded)
    rw [h.claims_eq_zero hnew, if_neg hother]
    exact Nat.zero_le _
  · cases hmoves with
    | claimed _ _ hstatus _ => cases hstatus.symm.trans hqueued
    | kept hhanded _ hbefore =>
      rw [hid, hsame, hkind] at hhanded
      rw [if_neg hhanded]
      rcases hbefore hqueued with hbefore | hrequeues
      · have hle := h.queued i hi (hsame.trans hkind) hbefore
        rw [hid] at hle
        omega
      · -- the handle was not used for a retry before, so it counts now
        have hone : (s.after call (call.run env now s.store.db)).requeues j.id = s.requeues j.id + 1 := by
          rw [hid] at hrequeues
          cases call with
          | retryMemoryJob job =>
            simp only [Process.requeues, Process.after, Call.retries, Option.toList_some, List.countP_append]
            simp [hrequeues.1, hrequeues.2, Nat.add_comm]
          | openStorage => exact absurd rfl husable.1
          | _ => cases hrequeues
        have hpaced := h.paced j.id
        omega

theorem paced_after (h : Paced env start s) (id : String) :
    (s.after call (call.run env now s.store.db)).claims id ≤
      (s.after call (call.run env now s.store.db)).requeues id + 1 := by
  have hmono := requeues_mono s call (call.run env now s.store.db) id
  rw [Process.claims_after]
  split
  · rename_i hhanded
    obtain ⟨j, hj, hid, hkind, hqueued⟩ := Call.handed_row hhanded
    have hle := h.queued j hj hkind hqueued
    rw [hid] at hle
    omega
  · have hle := h.paced id
    omega

/-- A new handle of a memory job carries the next count. -/
theorem carried_after (h : Paced env start s) (id : String) :
    (s.after call (call.run env now s.store.db)).carried id =
      (List.range' (attemptsAt start id + 1) ((s.after call (call.run env now s.store.db)).claims id)).reverse := by
  rw [Process.claims_after]
  have hold := h.carried id
  simp only [Process.carried, Process.after, List.filter_append, List.map_append] at hold ⊢
  rw [hold]
  by_cases hhanded : handedBy (call.run env now s.store.db).1 = some (.memory, id)
  · rw [if_pos hhanded]
    obtain ⟨job, hjob, rfl⟩ := handedBy_memory.mp hhanded
    have hattempts : job.attempts = attemptsAt start job.id + s.claims job.id + 1 := by
      cases hr : (call.run env now s.store.db).1 with
      | error e =>
        rw [hr] at hjob
        cases hjob
      | ok answer =>
        rw [hr] at hjob
        obtain ⟨_, db', hclaim⟩ := Call.answer_memoryJob hr hjob
        obtain ⟨j, hj, hid, hkind, hcount⟩ := claimMemoryJob_attempts hclaim
        rw [hcount, h.rows j hj hkind, hid]
    rw [hjob, List.range'_concat, List.reverse_append]
    simp [hattempts, Nat.add_right_comm]
  · rw [if_neg hhanded, Nat.add_zero]
    have hnone : ((call.run env now s.store.db).1.toOption.bind Answer.memoryJob).toList.filter (fun job => job.id = id) = [] := by
      apply List.filter_eq_nil_iff.mpr
      intro job hjob hsame
      exact hhanded (handedBy_memory.mpr ⟨job, Option.mem_toList.mp hjob, of_decide_eq_true hsame⟩)
    rw [hnone]
    rfl

/-- The handles of the process after a call: a new one, or one of those before. -/
theorem mem_jobs_after {call : Call} {r : Except StorageError Answer × Database} {job : ClaimedJob} :
    job ∈ (s.after call r).jobs ↔ r.1.toOption.bind Answer.job = some job ∨ job ∈ s.jobs := by
  simp [Process.after]

theorem mem_memoryJobs_after {call : Call} {r : Except StorageError Answer × Database} {job : ClaimedMemoryJob} :
    job ∈ (s.after call r).memoryJobs ↔ r.1.toOption.bind Answer.memoryJob = some job ∨ job ∈ s.memoryJobs := by
  simp [Process.after]

/-- The row of a document job is not queued once the job was claimed. -/
theorem started_after (h : Paced env start s) (husable : call.Usable s) {job : ClaimedJob}
    (hjob : job ∈ (s.after call (call.run env now s.store.db)).jobs) {j : Job}
    (hj : j ∈ (call.run env now s.store.db).2.jobs) (hid : j.id = job.id) : j.status ≠ .queued := by
  intro hqueued
  rcases call.movesRows env now s.store.db j hj with ⟨hnew, _⟩ | ⟨i, hi, hsame, _, hmoves⟩
  · rcases mem_jobs_after.mp hjob with hhanded | hold
    · exact hnew (hid ▸ h.handed_drawn (handedBy_document.mpr ⟨job, hhanded, rfl⟩))
    · exact hnew (hid ▸ (h.consistent.handleDrawn job (h.issued job hold)).1)
  · cases hmoves with
    | claimed _ _ hstatus _ => cases hstatus.symm.trans hqueued
    | kept hhanded _ hbefore =>
      rcases mem_jobs_after.mp hjob with hnew | hold
      · have hhanded' := handedBy_document.mpr ⟨job, hnew, rfl⟩
        obtain ⟨k, hk, hkid, hkkind, _⟩ := Call.handed_row hhanded'
        obtain rfl := Table.eq_of_key hi hk (hsame.trans (hid.trans hkid.symm))
        rw [hkid, hkkind] at hhanded
        exact hhanded hhanded'
      · rcases hbefore hqueued with hbefore | hrequeues
        · exact h.started job hold i hi (hsame.trans hid) hbefore
        · -- a retry queues the row of a memory job
          cases call with
          | retryMemoryJob m =>
            have hmemory := h.consistent.memoryHandleRow m (h.issuedMemory m (husable.2.2.1 m rfl)) i hi hrequeues.1.symm
            have hdocument := h.consistent.handleRow job (h.issued job hold) i hi (hsame.trans hid)
            cases hmemory.1.symm.trans hdocument.1
          | openStorage => exact absurd rfl husable.1
          | _ => cases hrequeues

theorem once_after (h : Paced env start s) :
    ((s.after call (call.run env now s.store.db)).jobs.map ClaimedJob.id).Nodup := by
  cases hhanded : (call.run env now s.store.db).1.toOption.bind Answer.job with
  | none =>
    simp only [Process.after, hhanded]
    exact h.once
  | some job =>
    simp only [Process.after, hhanded]
    refine List.nodup_cons.mpr ⟨?_, h.once⟩
    intro hmem
    obtain ⟨old, hold, hid⟩ := List.mem_map.mp hmem
    obtain ⟨j, hj, hjid, _, hqueued⟩ := Call.handed_row (handedBy_document.mpr ⟨job, hhanded, rfl⟩)
    exact h.started old hold j hj (hjid.trans hid.symm) hqueued

theorem after (h : Paced env start s) (hstart : ∀ j ∈ start.jobs, Drawn env start j.id) (husable : call.Usable s) :
    Paced env start (s.after call (call.run env now s.store.db)) where
  reachable := h.reachable.step (e := (now, call)) (machine_step.mpr ⟨h.call_issued husable, rfl⟩)
  drawn := by
    dsimp only [Process.after]
    rw [System.after_db]
    exact h.drawn.trans (call.idsDrawn_le env now s.store.db)
  issued := by
    intro job hjob
    rcases mem_jobs_after.mp hjob with hnew | hold
    · exact System.new_job hnew
    · exact System.mem_after_jobs (h.issued job hold)
  issuedMemory := by
    intro job hjob
    rcases mem_memoryJobs_after.mp hjob with hnew | hold
    · exact System.new_memoryJob hnew
    · exact System.mem_after_memoryJobs (h.issuedMemory job hold)
  once := h.once_after
  started := by
    intro job hjob j hj hid
    rw [Process.after, System.after_db] at hj
    exact h.started_after husable hjob hj hid
  retriedIssued := by
    intro job hjob
    refine mem_memoryJobs_after.mpr (.inr ?_)
    rcases List.mem_append.mp hjob with hnew | hold
    · exact husable.2.2.1 job (Call.memoryJob_of_retries (Option.mem_toList.mp hnew))
    · exact h.retriedIssued job hold
  retriedOnce := by
    dsimp only [Process.after]
    cases hretries : call.retries with
    | none => exact h.retriedOnce
    | some job => exact List.nodup_cons.mpr ⟨husable.2.2.2 job hretries, h.retriedOnce⟩
  rows := by
    intro j hj
    rw [Process.after, System.after_db] at hj
    exact h.rows_after hstart hj
  carried := h.carried_after
  queued := by
    intro j hj
    rw [Process.after, System.after_db] at hj
    exact h.queued_after husable hj
  paced := h.paced_after

end Paced

/-- The newest handle of the memory job. -/
def Process.lastClaim (s : Process) (id : String) : Option ClaimedMemoryJob := s.memoryJobs.find? fun job => job.id = id

/-- All claims of a row were made with handles of its kind. -/
theorem Consistent.claims_of_row (h : Consistent env s) {j : Job} (hj : j ∈ s.db.jobs) :
    claimsOf s j.kind j.id = s.jobs.countP (fun job => job.id = j.id) + s.memoryJobs.countP fun job => job.id = j.id := by
  unfold claimsOf
  cases hkind : j.kind with
  | document =>
    have hnone : s.memoryJobs.countP (fun job => job.id = j.id) = 0 := by
      apply List.countP_eq_zero.mpr
      intro job hjob hsame
      cases (h.memoryHandleRow job hjob j hj (of_decide_eq_true hsame).symm).1.symm.trans hkind
    rw [hnone]
    rfl
  | memory =>
    have hnone : s.jobs.countP (fun job => job.id = j.id) = 0 := by
      apply List.countP_eq_zero.mpr
      intro job hjob hsame
      cases (h.handleRow job hjob j hj (of_decide_eq_true hsame).symm).1.symm.trans hkind
    rw [hnone, Nat.zero_add]

theorem Paced.lastClaim_attempts {start : Database} {s : Process} (h : Paced env start s) {id : String}
    (hclaimed : 0 < s.claims id) :
    (s.lastClaim id).map ClaimedMemoryJob.attempts = some (attemptsAt start id + s.claims id) := by
  obtain ⟨earlier, hearlier⟩ := Nat.exists_eq_add_of_lt hclaimed
  have hcarried := h.carried id
  rw [hearlier, Nat.zero_add, List.range'_concat, List.reverse_append] at hcarried
  have hhead := congrArg List.head? hcarried
  rw [Process.carried, List.head?_map, List.head?_filter] at hhead
  rw [Process.lastClaim, hhead, hearlier]
  simp [Nat.add_right_comm, Nat.add_assoc]

theorem paced_of_run {s t : Process} (hinit : (processes env).init s) (hrun : (processes env).Run s t) :
    Paced env s.store.db t := by
  obtain ⟨before, now, orgId, db, hbefore, hopen, rfl⟩ := hinit
  have hreachable : (machine env).Reachable (before.after .openStorage (.ok (.opened orgId), db)) := by
    refine hbefore.step (e := (now, .openStorage)) (machine_step.mpr ⟨⟨nofun, nofun⟩, ?_⟩)
    simp only [Call.run, hopen]
    rfl
  have hstart := (consistent_of_reachable hreachable).jobDrawn
  induction hrun with
  | refl =>
    exact
      { reachable := hreachable
        drawn := le_refl _
        issued := fun _ h => absurd h List.not_mem_nil
        issuedMemory := fun _ h => absurd h List.not_mem_nil
        once := .nil
        started := fun _ h => absurd h List.not_mem_nil
        retriedIssued := fun _ h => absurd h List.not_mem_nil
        retriedOnce := .nil
        rows := by
          intro j hj _
          rw [attemptsAt, Table.find_eq_some.mpr ⟨hj, rfl⟩]
          rfl
        carried := fun id => rfl
        queued := fun _ _ _ _ => le_refl _
        paced := fun _ => Nat.zero_le _ }
  | step _ hstep ih =>
    obtain ⟨husable, rfl⟩ := processes_step.mp hstep
    exact ih.after hstart husable

/-- Between two openings a document job is claimed at most once, the attempts of a row are its claims of all times, and
    a memory job is claimed as often as its attempts leave, and then it is not queued again. -/
theorem claims_exclusive_and_bounded {s t : Process} (hinit : (processes env).init s) (hrun : (processes env).Run s t) :
    (t.jobs.map ClaimedJob.id).Nodup ∧
    (∀ j ∈ t.store.db.jobs, j.attempts = t.store.jobs.countP (fun job => job.id = j.id) +
      t.store.memoryJobs.countP fun job => job.id = j.id) ∧
    ∀ id, t.claims id ≤ max 1 (maxAttempts - attemptsAt s.store.db id) ∧
      (t.claims id = max 1 (maxAttempts - attemptsAt s.store.db id) → ∀ j ∈ t.store.db.jobs, j.id = id →
        j.status = .done ∨ j.status = .failed ∨
          j.status = .extracting ∧ (t.lastClaim id).map ClaimedMemoryJob.attempts = some j.attempts) := by
  have h := paced_of_run hinit hrun
  refine ⟨h.once, ?_, ?_⟩
  · intro j hj
    rw [counted_of_reachable h.reachable j hj, h.consistent.claims_of_row hj]
  · intro id
    have hpaced := h.paced id
    have hrequeues := h.requeues_le id
    refine ⟨?_, ?_⟩
    · unfold maxAttempts at hrequeues ⊢
      omega
    · rintro hlast j hj rfl
      have hclaimed : 0 < t.claims j.id := by
        rw [hlast]
        exact lt_max_of_lt_left Nat.one_pos
      obtain ⟨job, hjob, hid⟩ := List.countP_pos_iff.mp hclaimed
      have hkind := (h.consistent.memoryHandleRow job (h.issuedMemory job hjob) j hj (of_decide_eq_true hid).symm).1
      rcases memoryStatuses_of_reachable h.reachable j hj hkind with hqueued | hextracting | hdone | hfailed
      · have hle := h.queued j hj hkind hqueued
        unfold maxAttempts at hrequeues hlast
        omega
      · rw [h.lastClaim_attempts hclaimed, h.rows j hj hkind]
        exact .inr (.inr ⟨hextracting, rfl⟩)
      · exact .inl hdone
      · exact .inr (.inl hfailed)

/-- The store with a queued memory job, when it was opened last. -/
def openedQueued : Option System :=
  let job : ClaimedJob := ⟨"xx", "x", "a fact", 1⟩
  afterCalls [.openStorage, .upsertDocument "" (upsertOf "a fact"), .claimJob, .markJobStage job .chunking,
    .markJobStage job .embedding, .completeEmbeddedJobWithMemoryExtraction job [] "model" 768]

/-- A worker claims the memory job, gives it back, and claims it again. -/
def claimedAgain : List (Time × Call) :=
  let job : ClaimedMemoryJob := ⟨"xxx", "x", "a fact", 1, "", "tag", none, none, 1⟩
  [(63871286400, .claimMemoryJob), (63871286400, .retryMemoryJob job "transport" "reset" (some 0)),
    (63871286460, .claimMemoryJob)]

theorem claims_exclusive_and_bounded_claimedAgain : ∃ s t, (processes unaryEnv).init s ∧
    (processes unaryEnv).replay s claimedAgain = some t ∧ t.claims "xxx" = 2 ∧
    t.claims "xxx" ≤ max 1 (maxAttempts - attemptsAt s.store.db "xxx") := by
  have hrun : ∃ before ∈ openedQueued, ∃ r ∈ (openStorage unaryEnv 63871286400 before.db).toOption,
      ∃ t ∈ (processes unaryEnv).replay ⟨before.after .openStorage (.ok (.opened r.1), r.2), [], [], []⟩ claimedAgain,
        t.claims "xxx" = 2 := by
    decide +kernel
  obtain ⟨before, hbefore, ⟨orgId, db⟩, hopen, t, hreplay, htwice⟩ := hrun
  have hinit : (processes unaryEnv).init ⟨before.after .openStorage (.ok (.opened orgId), db), [], [], []⟩ :=
    ⟨before, _, orgId, db, afterCalls_reachable hbefore, Loop.ok_of_mem_toOption hopen, rfl⟩
  exact ⟨_, t, hinit, hreplay, htwice, ((claims_exclusive_and_bounded hinit (.replay .refl hreplay)).2.2 "xxx").1⟩

end Storage
