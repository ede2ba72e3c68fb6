-- SUMMARY: A cohort strands no job as long as no task fails while another one still has a claimed row to give back.
import Supermemory.Server.IndexingCoordinator
import Supermemory.Storage.LiveRows

/-!
# Cohorts

The row of a task's job has the status of the point that the task has reached, because
nobody else touches it. A task that returns leaves its row done, failed, or gone. A task
that is dropped leaves its row claimed, unless its last write was sent.
-/

namespace Server

open Storage

variable {env : Env} {coordinator : Coordinator} {now : Time} {call : Call} {k : ClaimedJob}

-- ---------------------------------------------------------------------------
-- Rows at points
-- ---------------------------------------------------------------------------

namespace Point

variable {point : Point env}

/-- The status of the row of a task's job, while there is one. -/
def Row : Point env → DocumentState → Prop
  | stageChunking, status => status = .extracting
  | chunking, status | deleteEmpty, status | complete _, status | stageEmbedding _, status => status = .chunking
  | embedding _, status | stageIndexing _, status => status = .embedding
  | publish _, status => status = .indexing
  | fail _ _, status => status.IsClaimed
  | returned _, status | aborted, status => status = .done ∨ status = .failed

/-- The write of the point ends the job. -/
def isFinal : Point env → Bool
  | deleteEmpty | complete _ | publish _ | fail _ _ => true
  | _ => false

/-- The task has its result, or was dropped. -/
def isOver : Point env → Bool
  | returned _ | aborted => true
  | _ => false

theorem Row.not_queued {status : DocumentState} (h : point.Row status) : status ≠ .queued := by
  rintro rfl
  cases point with
  | fail =>
    have hclaimed : DocumentState.IsClaimed .queued := h
    exact absurd hclaimed (by decide)
  | returned | aborted => exact h.elim DocumentState.noConfusion DocumentState.noConfusion
  | _ => cases h

theorem Row.chunked {status : DocumentState} (h : (chunking : Point env).Row status)
    (outcome : Except Chunking.ChunkingError (List String)) :
    (Point.chunked coordinator outcome : Point env).Row status := by
  obtain rfl : status = .chunking := h
  cases outcome with
  | error error => exact .inr (.inl rfl)
  | ok chunks =>
    simp only [Point.chunked]
    split
    · rfl
    · split
      · rfl
      · rfl

theorem Row.embedded {status : DocumentState} {chunks : List String} (h : (embedding chunks : Point env).Row status)
    (outcome : Except String (List (EmbeddedText env))) : (Point.embedded outcome).Row status := by
  obtain rfl : status = .embedding := h
  cases outcome with
  | error message => exact .inr (.inr (.inl rfl))
  | ok embedded => rfl

/-- A publication commits, or finds its revision gone, or the engine refuses it. -/
theorem publication {db : Database} (hpoint : (∃ chunks, point = complete chunks) ∨ ∃ embedded, point = publish embedded)
    (hcall : point.write coordinator k = some call) :
    (∃ chunks schedule db', call.run env now db = (.ok .unit, db') ∧ Publishes env now k chunks schedule db db') ∨
    ∃ e, call.run env now db = (.error e, db) ∧ (db.documentRevision k.documentId ≠ some k.revision ∨ e = .write) := by
  rcases hpoint with ⟨chunks, rfl⟩ | ⟨embedded, rfl⟩
  · obtain rfl := Option.some_inj.mp hcall
    simp only [Call.run]
    cases hr : completeJob env now k chunks db with
    | error e => exact .inr ⟨e, rfl, publishJob_error hr⟩
    | ok db' => exact .inl ⟨_, _, db', rfl, completeJob_ok hr⟩
  · have hvalid := validateChunks_embedded embedded
    simp only [write] at hcall
    split at hcall
    · obtain rfl := Option.some_inj.mp hcall
      simp only [Call.run]
      cases hr : completeEmbeddedJobWithMemoryExtraction env now k (embedded.map (·.chunk)) bgeModelId
          bgeDimensions db with
      | error e =>
        unfold completeEmbeddedJobWithMemoryExtraction at hr
        rw [if_neg (by decide), hvalid] at hr
        exact .inr ⟨e, rfl, publishJob_error hr⟩
      | ok db' => exact .inl ⟨_, _, db', rfl, completeEmbeddedJobWithMemoryExtraction_ok hr⟩
    · obtain rfl := Option.some_inj.mp hcall
      simp only [Call.run]
      cases hr : completeEmbeddedJob env now k (embedded.map (·.chunk)) bgeModelId bgeDimensions db with
      | error e =>
        unfold completeEmbeddedJob at hr
        rw [if_neg (by decide), hvalid] at hr
        exact .inr ⟨e, rfl, publishJob_error hr⟩
      | ok db' => exact .inl ⟨_, _, db', rfl, completeEmbeddedJob_ok hr⟩

/-- A stage change leaves the row as the point after the reply says. -/
theorem stage_row {s : Session} (h : Disciplined s) (hs : Consistent env s.store) (hk : k ∈ s.live)
    {stage expected : DocumentState} (hexpected : expectedStage stage = some expected)
    (hrow : ∀ j ∈ s.store.db.jobs, j.id = k.id → j.status = expected) (hnext : point.next.Row stage) :
    ∀ j ∈ ((Call.markJobStage k stage).run env now s.store.db).2.jobs, j.id = k.id →
      (point.reply ((Call.markJobStage k stage).run env now s.store.db).1).Row j.status := by
  intro j hj hid
  rcases h.stage_row hs hk hexpected hrow with ⟨heq, hgone⟩ | ⟨db', heq, hstatus⟩
  · rw [heq] at hj
    exact absurd hid (hgone j hj)
  · rw [heq] at hj ⊢
    rw [hstatus j hj hid]
    exact hnext

/-- A write of a task leaves the row as the point after the reply says. -/
theorem write_row {s : Session} (h : Disciplined s) (hs : Consistent env s.store) (hk : k ∈ s.live)
    (hrow : ∀ j ∈ s.store.db.jobs, j.id = k.id → point.Row j.status)
    (hcall : point.write coordinator k = some call) (hengine : ¬ EngineFails (call.run env now s.store.db).1) :
    ∀ j ∈ (call.run env now s.store.db).2.jobs, j.id = k.id →
      (point.reply (call.run env now s.store.db).1).Row j.status := by
  have hpublication (hpoint : (∃ chunks, point = complete chunks) ∨ ∃ embedded, point = publish embedded) :
      ∀ j ∈ (call.run env now s.store.db).2.jobs, j.id = k.id → j.status = .done := by
    intro j hj hid
    rcases publication hpoint hcall with ⟨_, _, db', heq, hp⟩ | ⟨e, heq, hstale | rfl⟩
    · rw [heq] at hj
      exact h.publish_row hs hk hp j hj hid
    · rw [heq] at hj
      exact absurd hid (h.stale_row hs hk hstale j hj)
    · exact absurd (.inl (congrArg Prod.fst heq)) hengine
  cases point with
  | stageChunking =>
    obtain rfl := Option.some_inj.mp hcall
    exact stage_row h hs hk rfl hrow rfl
  | stageEmbedding chunks =>
    obtain rfl := Option.some_inj.mp hcall
    exact stage_row h hs hk rfl hrow rfl
  | stageIndexing embedded =>
    obtain rfl := Option.some_inj.mp hcall
    exact stage_row h hs hk rfl hrow rfl
  | deleteEmpty =>
    obtain rfl := Option.some_inj.mp hcall
    exact fun j hj hid => absurd hid (h.deleteEmpty_row hs hk hrow j hj)
  | fail message error =>
    obtain rfl := Option.some_inj.mp hcall
    exact fun j hj hid => .inr (h.fail_row hs hk message j hj hid)
  | complete chunks =>
    intro j hj hid
    have hdone := hpublication (.inl ⟨chunks, rfl⟩) j hj hid
    cases hr : (call.run env now s.store.db).1 with
    | error e => exact .inl hdone
    | ok answer => exact .inl hdone
  | publish embedded =>
    intro j hj hid
    have hdone := hpublication (.inr ⟨embedded, rfl⟩) j hj hid
    cases hr : (call.run env now s.store.db).1 with
    | error e => exact .inl hdone
    | ok answer => exact .inl hdone
  | chunking | embedding | returned | aborted => cases hcall

end Point

-- ---------------------------------------------------------------------------
-- Tasks of a cohort
-- ---------------------------------------------------------------------------

/-- What a task relies on: its handle is one of the store, live as long as the task is not over, and the
    row has the status of the task's point. -/
structure Member.Keeps (s : Session) (m : Member env) : Prop where
  issued : m.job ∈ s.store.jobs
  live : m.point.isOver = false → m.job ∈ s.live
  row : ∀ j ∈ s.store.db.jobs, j.id = m.job.id → m.point.Row j.status

/-- The task may be dropped: it is over, its last write was sent, or its row is gone. -/
def Member.Settles (db : Database) (m : Member env) : Prop :=
  m.point.isOver = true ∨ (m.sent = true ∧ m.point.isFinal = true) ∨ ∀ j ∈ db.jobs.rows, j.id ≠ m.job.id

instance (db : Database) (m : Member env) : Decidable (m.Settles db) :=
  inferInstanceAs (Decidable (_ ∨ _ ∨ _))

section Frame

variable {s : Session} {m : Member env}

/-- A call that does not take the handle of a task leaves the task what it relies on. -/
theorem Member.Keeps.frame (h : m.Keeps s) (hd : Disciplined s) (hs : Consistent env s.store) (hlive : call.Live s)
    (hopen : call ≠ .openStorage) (hown : ∀ k ∈ call.job, k.id ≠ m.job.id) :
    m.Keeps (s.after call (call.run env now s.store.db)) where
  issued := System.mem_after_jobs h.issued
  live hover := live_kept (h.live hover) (fun hended => hown _ (Call.ended_job hended) rfl) hopen
  row j hj hid := by
    simp only [Session.after, System.after_db] at hj
    have hqueued : ∀ j ∈ s.store.db.jobs, j.id = m.job.id → j.status ≠ .queued :=
      fun j hj hid => (h.row j hj hid).not_queued
    exact h.row j (hd.row_kept hs hlive hopen h.issued hown hqueued j hj hid) hid

theorem Member.Settles.frame (h : m.Settles s.store.db) (hs : Consistent env s.store) (hopen : call ≠ .openStorage)
    (hissued : m.job ∈ s.store.jobs) : m.Settles (s.after call (call.run env now s.store.db)).store.db := by
  refine h.imp_right (Or.imp_right fun hgone => ?_)
  simp only [Session.after, System.after_db]
  exact gone_kept hs hopen hissued hgone

end Frame

-- ---------------------------------------------------------------------------
-- The invariant
-- ---------------------------------------------------------------------------

/-- The tasks of a cohort have different jobs and what they rely on; none has started while jobs are claimed,
    and when the cohort has returned each of them may be dropped. -/
structure Attended (s : Cohort env) : Prop where
  reachable : (sessions env).Reachable s.session
  distinct : (s.members.map (·.job.id)).Nodup
  keeps : ∀ m ∈ s.members, m.Keeps s.session
  claiming : s.phase = .claiming → ∀ m ∈ s.members, m.point = .stageChunking ∧ m.sent = false
  settles : ∀ r, s.phase = .returned r → ∀ m ∈ s.members, m.Settles s.db

/-- The step strands no job: no task is dropped that has not settled, and the engine refuses no statement. -/
def Cohort.Allows (coordinator : Coordinator) (s : Cohort env) : Time × CohortEvent env → Prop
  | (_, .joinError _) => ∀ m ∈ s.members, m.Settles s.db
  | (now, .write i) => ∀ m ∈ s.members[i]?, ∀ call ∈ m.point.write coordinator m.job,
      ¬ EngineFails (call.run env now s.db).1
  | _ => True

instance (s : Cohort env) (event : Time × CohortEvent env) : Decidable (s.Allows coordinator event) := by
  unfold Cohort.Allows
  split <;> infer_instance

variable {s s' : Cohort env} {i : Nat} {m m' : Member env}

theorem setMember_distinct (hdistinct : (s.members.map (·.job.id)).Nodup) (hi : s.members[i]? = some m)
    (hjob : m'.job = m.job) : ((s.setMember i m').members.map (·.job.id)).Nodup := by
  suffices hids : (s.setMember i m').members.map (·.job.id) = s.members.map (·.job.id) by rwa [hids]
  simp only [Cohort.setMember, List.map_set, hjob]
  refine List.ext_getElem? fun j => ?_
  rw [List.getElem?_set]
  split
  · rename_i heq
    subst heq
    obtain ⟨hlt, hget⟩ := List.getElem?_eq_some_iff.mp hi
    simp [hlt, hget]
  · rfl

/-- The other tasks have other jobs. -/
theorem mem_setMember (hdistinct : (s.members.map (·.job.id)).Nodup) (hi : s.members[i]? = some m) {o : Member env}
    (ho : o ∈ (s.setMember i m').members) : o = m' ∨ o ∈ s.members ∧ m.job.id ≠ o.job.id := by
  obtain ⟨j, hj⟩ := List.mem_iff_getElem?.mp ho
  simp only [Cohort.setMember, List.getElem?_set] at hj
  split at hj
  · split at hj
    · exact .inl (Option.some_inj.mp hj).symm
    · cases hj
  · rename_i hne
    refine .inr ⟨List.mem_of_getElem? hj, fun hid => hne ?_⟩
    have hlength : i < (s.members.map (·.job.id)).length := by
      rw [List.length_map]
      exact (List.getElem?_eq_some_iff.mp hi).1
    refine (List.getElem?_inj hlength hdistinct).mp ?_
    simp [hi, hj, hid]

theorem Point.write_job {point : Point env} (hcall : point.write coordinator k = some call) :
    call.job = some k ∧ call.memoryJob = none ∧ call ≠ .openStorage ∧ point.isOver = false := by
  cases point with
  | publish embedded =>
    simp only [Point.write] at hcall
    split at hcall
    · obtain rfl := Option.some_inj.mp hcall
      exact ⟨rfl, rfl, Call.noConfusion, rfl⟩
    · obtain rfl := Option.some_inj.mp hcall
      exact ⟨rfl, rfl, Call.noConfusion, rfl⟩
  | chunking | embedding | returned | aborted => cases hcall
  | _ =>
    obtain rfl := Option.some_inj.mp hcall
    exact ⟨rfl, rfl, Call.noConfusion, rfl⟩

/-- A task goes on only after a call that does not end its job. -/
theorem Point.reply_live {point : Point env} {r : Except StorageError Answer}
    (hcall : point.write coordinator k = some call) (hover : (point.reply r).isOver = false) : call.ended = none := by
  cases r with
  | error e => cases hover
  | ok answer =>
    cases point with
    | stageChunking | stageEmbedding | stageIndexing =>
      obtain rfl := Option.some_inj.mp hcall
      rfl
    | chunking | embedding | returned | aborted => cases hcall
    | _ => cases hover

theorem Point.final_row {point : Point env} {r : Except StorageError Answer} {status : DocumentState}
    (hfinal : point.isFinal = true) (h : (point.reply r).Row status) : (aborted : Point env).Row status := by
  cases r with
  | error e => exact h
  | ok answer =>
    cases point with
    | deleteEmpty | complete | publish | fail => exact h
    | _ => cases hfinal

namespace Attended

/-- The calls of a cohort are calls of a session. -/
theorem reachable_execute (h : Attended s) (hlive : call.Live s.session) :
    (sessions env).Reachable (s.execute now call).session :=
  .step (e := (now, call)) h.reachable (sessions_step.mpr ⟨hlive, rfl⟩)

/-- A task may be replaced by one with the same job, as long as it has what it relies on. -/
theorem setMember (h : Attended s) (hi : s.members[i]? = some m) (hjob : m'.job = m.job)
    (hphase : s.phase ≠ .claiming) (hkeeps : m'.Keeps s.session)
    (hsettles : ∀ r, s.phase = .returned r → m'.Settles s.db) : Attended (s.setMember i m') where
  reachable := h.reachable
  distinct := setMember_distinct h.distinct hi hjob
  keeps o ho := by
    rcases mem_setMember h.distinct hi ho with rfl | ⟨ho, _⟩
    · exact hkeeps
    · exact h.keeps o ho
  claiming hclaiming := absurd hclaiming hphase
  settles r hr o ho := by
    rcases mem_setMember h.distinct hi ho with rfl | ⟨ho, _⟩
    · exact hsettles r hr
    · exact h.settles r hr o ho

/-- A call that takes no handle of the cohort. -/
theorem elsewhere (h : Attended s) (hcall : Call.Elsewhere s.session call) : Attended (s.execute now call) := by
  obtain ⟨hs, hd⟩ := disciplined_of_reachable h.reachable
  obtain ⟨hlive, hjob, _, hopen⟩ := hcall
  have hown : ∀ m : Member env, ∀ k ∈ call.job, k.id ≠ m.job.id := by
    intro m k hk
    rw [hjob] at hk
    cases hk
  exact
    { reachable := h.reachable_execute hlive
      distinct := h.distinct
      keeps := fun m hm => (h.keeps m hm).frame hd hs hlive hopen (hown m)
      claiming := h.claiming
      settles := fun r hr m hm => (h.settles r hr m hm).frame hs hopen (h.keeps m hm).issued }

/-- A task whose write is executed goes on from the reply, or has settled. -/
theorem write (h : Attended s) (hi : s.members[i]? = some m) (hsent : m.sent = true)
    (hcall : m.point.write coordinator m.job = some call) (hengine : ¬ EngineFails (call.run env now s.db).1) :
    Attended (s.write now i m call) := by
  obtain ⟨hs, hd⟩ := disciplined_of_reachable h.reachable
  have hm : m ∈ s.members := List.mem_of_getElem? hi
  have hkeeps := h.keeps m hm
  obtain ⟨hjob, hmemoryJob, hopen, hover⟩ := Point.write_job hcall
  have hlive : call.Live s.session := by
    simp [Call.Live, hjob, hmemoryJob, hkeeps.live hover]
  have hphase : s.phase ≠ .claiming := by
    intro hclaiming
    have hunsent := (h.claiming hclaiming m hm).2
    rw [hsent] at hunsent
    cases hunsent
  have hreplied : ∀ j ∈ (call.run env now s.db).2.jobs, j.id = m.job.id →
      (m.point.reply (call.run env now s.db).1).Row j.status :=
    Point.write_row hd hs (hkeeps.live hover) hkeeps.row hcall hengine
  have hown {o : Member env} (hne : m.job.id ≠ o.job.id) : ∀ k ∈ call.job, k.id ≠ o.job.id := by
    intro k hk
    obtain rfl : m.job = k := Option.some_inj.mp (hjob.symm.trans hk)
    exact hne
  -- the row of a task that was dropped is settled by its last write
  have haborted (r : Except WorkerError Bool) (hr : s.phase = .returned r) :
      ∀ j ∈ (call.run env now s.db).2.jobs, j.id = m.job.id → (.aborted : Point env).Row j.status := by
    intro j hj hid
    rcases h.settles r hr m hm with hisOver | ⟨_, hfinal⟩ | hgone
    · rw [hover] at hisOver
      cases hisOver
    · exact Point.final_row hfinal (hreplied j hj hid)
    · exact absurd hid (gone_kept hs hopen hkeeps.issued hgone j hj)
  refine
    { reachable := h.reachable_execute hlive
      distinct := setMember_distinct (s := s.execute now call) h.distinct hi rfl
      keeps := fun o ho => ?_
      claiming := fun hclaiming => absurd hclaiming hphase
      settles := fun r hr o ho => ?_ }
  · rcases mem_setMember (s := s.execute now call) h.distinct hi ho with rfl | ⟨ho, hne⟩
    · refine ⟨System.mem_after_jobs hkeeps.issued, fun hlives => ?_, fun j hj hid => ?_⟩
      · dsimp only at hlives
        split at hlives
        · have hended := Point.reply_live hcall hlives
          exact live_kept (hkeeps.live hover) (by simp [hended]) hopen
        · cases hlives
      · simp only [Cohort.write, Cohort.setMember, Cohort.execute, Session.after, System.after_db] at hj
        dsimp only at hid ⊢
        split
        · exact hreplied j hj hid
        · rename_i hjoining
          cases hr : s.phase with
          | claiming => exact absurd hr hphase
          | joining => exact absurd hr hjoining
          | returned r => exact haborted r hr j hj hid
    · exact (h.keeps o ho).frame hd hs hlive hopen (hown hne)
  · rcases mem_setMember (s := s.execute now call) h.distinct hi ho with rfl | ⟨ho, _⟩
    · have hjoining : s.phase ≠ .joining := by
        intro hjoining
        exact Phase.noConfusion (hjoining.symm.trans hr)
      exact .inl (by rw [if_neg hjoining]; rfl)
    · exact (h.settles r hr o ho).frame hs hopen (h.keeps o ho).issued

/-- A claim adds a task that has not started, or spawns the tasks. -/
theorem claim (h : Attended s) (hphase : s.phase = .claiming) : Attended (s.claim now) := by
  obtain ⟨hs, hd⟩ := disciplined_of_reachable h.reachable
  have hlive : Call.claimJob.Live s.session := by simp [Call.Live, Call.job, Call.memoryJob]
  have hopen : Call.claimJob ≠ .openStorage := Call.noConfusion
  have hkept : ∀ m ∈ s.members, m.Keeps (s.execute now .claimJob).session :=
    fun m hm => (h.keeps m hm).frame hd hs hlive hopen fun k hk => by cases hk
  unfold Cohort.claim
  split
  · rename_i job hr
    have hnew : (⟨job, .stageChunking, false⟩ : Member env).Keeps (s.execute now .claimJob).session :=
      { issued := Disciplined.issued_new hr rfl
        live := fun _ => live_new hr rfl
        row := by
          intro j hj hid
          simp only [Cohort.execute, Session.after, System.after_db] at hj
          exact Disciplined.extracting_new hr rfl j hj hid }
    -- the row of the new job was queued, and no task has a queued row
    have hfresh : ∀ m ∈ s.members, m.job.id ≠ job.id := by
      intro m hm hid
      obtain ⟨j, hj, hjid, _, hqueued⟩ := Call.answer_queued hr rfl
      exact ((h.keeps m hm).row j hj (hjid.trans hid.symm)).not_queued hqueued
    refine
      { reachable := h.reachable_execute hlive
        distinct := ?_
        keeps := fun m hm => ?_
        claiming := fun _ m hm => ?_
        settles := fun r hr => ?_ }
    · rw [List.map_append, List.nodup_append]
      refine ⟨h.distinct, List.nodup_singleton _, fun a ha b hb => ?_⟩
      obtain ⟨m, hm, rfl⟩ := List.mem_map.mp ha
      obtain rfl : b = job.id := by simpa using hb
      exact hfresh m hm
    · rcases List.mem_append.mp hm with hm | hm
      · exact hkept m hm
      · obtain rfl := List.mem_singleton.mp hm
        exact hnew
    · rcases List.mem_append.mp hm with hm | hm
      · exact h.claiming hphase m hm
      · obtain rfl := List.mem_singleton.mp hm
        exact ⟨rfl, rfl⟩
    · dsimp only at hr
      split at hr
      · cases hr
      · cases hr
  · refine
      { reachable := h.reachable_execute hlive
        distinct := h.distinct
        keeps := hkept
        claiming := fun hclaiming => ?_
        settles := fun r hr m hm => ?_ }
    · dsimp only at hclaiming
      split at hclaiming
      · cases hclaiming
      · cases hclaiming
    · have hm : m ∈ s.members := hm
      rw [if_neg (List.ne_nil_of_mem hm)] at hr
      cases hr

/-- A computation leaves the row alone, so a task that goes on from it still has what it relies on. -/
theorem computed (h : Attended s) (hi : s.members[i]? = some m) (hphase : s.phase = .joining) {point : Point env}
    (hover : m.point.isOver = false) (hrow : ∀ status, m.point.Row status → point.Row status) :
    Attended (s.setMember i { m with point }) := by
  have hkeeps := h.keeps m (List.mem_of_getElem? hi)
  refine h.setMember hi rfl (hphase ▸ Phase.noConfusion) ?_ fun r hr => Phase.noConfusion (hphase.symm.trans hr)
  exact ⟨hkeeps.issued, fun _ => hkeeps.live hover, fun j hj hid => hrow _ (hkeeps.row j hj hid)⟩

/-- `process_available` returns. -/
theorem returned (h : Attended s) {result : Except WorkerError Bool} (hsettles : ∀ m ∈ s.members, m.Settles s.db) :
    Attended { s with phase := .returned result } where
  reachable := h.reachable
  distinct := h.distinct
  keeps := h.keeps
  claiming := Phase.noConfusion
  settles _ _ := hsettles

/-- A step that the condition allows keeps the invariant. -/
theorem step (h : Attended s) {event : Time × CohortEvent env} (hallows : s.Allows coordinator event)
    (hstep : s.step coordinator event.1 event.2 = some s') : Attended s' := by
  obtain ⟨now, event⟩ := event
  cases event with
  | claim =>
    simp only [Cohort.step] at hstep
    split at hstep
    · rename_i hphase
      cases hstep
      exact h.claim hphase
    · cases hstep
  | send i =>
    obtain ⟨m, hi, hstep⟩ := Option.bind_eq_some_iff.mp hstep
    split at hstep
    · rename_i hguard
      cases hstep
      have hm : m ∈ s.members := List.mem_of_getElem? hi
      have hkeeps := h.keeps m hm
      refine h.setMember hi rfl hguard.1 ⟨hkeeps.issued, hkeeps.live, hkeeps.row⟩ fun r hr => ?_
      rcases h.settles r hr m hm with hover | ⟨_, hfinal⟩ | hgone
      · exact .inl hover
      · exact .inr (.inl ⟨rfl, hfinal⟩)
      · exact .inr (.inr hgone)
    · cases hstep
  | write i =>
    obtain ⟨m, hi, hstep⟩ := Option.bind_eq_some_iff.mp hstep
    obtain ⟨call, hcall, hstep⟩ := Option.bind_eq_some_iff.mp hstep
    split at hstep
    · rename_i hsent
      cases hstep
      exact h.write hi hsent hcall (hallows m hi call hcall)
    · cases hstep
  | chunked i outcome =>
    obtain ⟨m, hi, hstep⟩ := Option.bind_eq_some_iff.mp hstep
    split at hstep
    · rename_i hguard
      cases hstep
      obtain ⟨hphase, hpoint⟩ := hguard
      refine h.computed hi hphase (by rw [hpoint]; rfl) fun status hrow => ?_
      rw [hpoint] at hrow
      exact hrow.chunked outcome
    · cases hstep
  | embedded i outcome =>
    obtain ⟨m, hi, hstep⟩ := Option.bind_eq_some_iff.mp hstep
    split at hstep
    · rename_i hphase hpoint
      cases hstep
      refine h.computed hi hphase (by rw [hpoint]; rfl) fun status hrow => ?_
      rw [hpoint] at hrow
      exact hrow.embedded outcome
    · cases hstep
  | joinError i =>
    obtain ⟨m, hi, hstep⟩ := Option.bind_eq_some_iff.mp hstep
    split at hstep
    · cases hstep
      exact h.returned hallows
    · cases hstep
  | joinAll =>
    simp only [Cohort.step] at hstep
    split at hstep
    · rename_i hguard
      cases hstep
      refine h.returned fun m hm => .inl ?_
      rw [hguard.2 m hm]
      rfl
    · cases hstep
  | elsewhere call =>
    simp only [Cohort.step] at hstep
    split at hstep
    · rename_i hcall
      cases hstep
      exact h.elsewhere hcall
    · cases hstep

end Attended

/-- The cohort in which no step strands a job. -/
def carefulCohorts (env : Env) (coordinator : Coordinator) : Machine (Cohort env) (Time × CohortEvent env) :=
  (cohorts env coordinator).restrict fun s event => s.Allows coordinator event

theorem attended_of_reachable (h : (carefulCohorts env coordinator).Reachable s) : Attended s := by
  refine h.invariant (I := Attended) ?_ ?_
  · rintro s ⟨hreachable, hphase, hmembers⟩
    constructor <;> simp [hreachable, hphase, hmembers]
  · rintro s event s' _ hs hstep
    obtain ⟨hallows, hstep⟩ := Machine.restrict_step.mp hstep
    exact hs.step hallows hstep

/-- When `process_available` has returned, every job it claimed is done, failed, or deleted with its document,
    unless its last write is still on its way, provided that an error was joined only when every other
    task had settled, and that the engine refused no statement. -/
theorem cohort_strands_no_job {result : Except WorkerError Bool} (h : (carefulCohorts env coordinator).Reachable s)
    (hreturned : s.phase = .returned result) :
    ∀ m ∈ s.members, m.sent = false → ∀ j ∈ s.db.jobs, j.id = m.job.id → j.status = .done ∨ j.status = .failed := by
  intro m hm hsent j hj hid
  have hs := attended_of_reachable h
  have hrow := (hs.keeps m hm).row j hj hid
  rcases hs.settles result hreturned m hm with hover | ⟨hwriting, _⟩ | hgone
  · cases hpoint : m.point with
    | returned | aborted =>
      rw [hpoint] at hrow
      exact hrow
    | _ =>
      rw [hpoint] at hover
      cases hover
  · rw [hsent] at hwriting
    cases hwriting
  · exact absurd hid (hgone j hj)

-- ---------------------------------------------------------------------------
-- Concrete runs
-- ---------------------------------------------------------------------------

/-- A coordinator with embeddings and no provider. -/
def embeddingCoordinator : Coordinator := { embeddings := true, provider := false }

/-- The cohort after some events, with documents of the given contents queued before it. Everything happens at
    the first instant of 2024. -/
def cohortAfter (M : Machine (Cohort unaryEnv) (Time × CohortEvent unaryEnv)) (contents : List String)
    (events : List (CohortEvent unaryEnv)) : Option (Cohort unaryEnv) :=
  let upserts := contents.map fun content => Call.upsertDocument "" { upsertOf content with customId := some content }
  (sessionAfter (.openStorage :: upserts)).bind fun session =>
    M.replay ⟨session, .claiming, []⟩ (events.map (63871286400, ·))

theorem cohortAfter_reachable {M : Machine (Cohort unaryEnv) (Time × CohortEvent unaryEnv)}
    (hM : M.init = (cohorts unaryEnv embeddingCoordinator).init) {contents : List String}
    {events : List (CohortEvent unaryEnv)} {s : Cohort unaryEnv} (h : cohortAfter M contents events = some s) :
    M.Reachable s := by
  obtain ⟨session, hsession, hr⟩ := Option.bind_eq_some_iff.mp h
  refine Machine.Reachable.replay (.start ?_) hr
  rw [hM]
  exact ⟨sessionAfter_reachable hsession, rfl, rfl⟩

/-- A task whose embedding fails gives its job back, and returns the error. -/
def embeddingFails (i : Nat) (content : String) : List (CohortEvent unaryEnv) :=
  [.send i, .write i, .chunked i (.ok [content]), .send i, .write i,
    .embedded i (.error "embedding executor has stopped"), .send i, .write i, .joinError i]

def failedCohort : Option (Cohort unaryEnv) :=
  cohortAfter (carefulCohorts unaryEnv embeddingCoordinator) ["a fact"] ([.claim, .claim] ++ embeddingFails 0 "a fact")

theorem cohort_strands_no_job_failed : ∃ s, failedCohort = some s ∧ ∃ m ∈ s.members, ∃ j ∈ s.db.jobs,
    j.id = m.job.id ∧ (j.status = .done ∨ j.status = .failed) := by
  obtain ⟨s, hs⟩ : ∃ s, failedCohort = some s := Option.isSome_iff_exists.mp (by decide +kernel)
  have hreachable := cohortAfter_reachable (M := carefulCohorts unaryEnv embeddingCoordinator) rfl hs
  have hfailed : ∀ s ∈ failedCohort,
      s.phase = .returned (.error (.embeddingExecutor "embedding executor has stopped")) ∧
        ∃ m ∈ s.members, m.sent = false ∧ ∃ j ∈ s.db.jobs.rows, j.id = m.job.id := by
    decide +kernel
  obtain ⟨hreturned, m, hm, hsent, j, hj, hid⟩ := hfailed s hs
  exact ⟨s, hs, m, hm, j, hj, hid, cohort_strands_no_job hreachable hreturned m hm hsent j hj hid⟩

/-- The first of two tasks fails before the second one starts. -/
def strandedCohort : Option (Cohort unaryEnv) :=
  cohortAfter (cohorts unaryEnv embeddingCoordinator) ["a fact", "another"]
    ([.claim, .claim, .claim] ++ embeddingFails 0 "a fact")

theorem cohort_strands_job : ∃ s, (cohorts unaryEnv embeddingCoordinator).Reachable s ∧
    s.phase = .returned (.error (.embeddingExecutor "embedding executor has stopped")) ∧
    (∀ m ∈ s.members, m.sent = false) ∧
    ∃ m ∈ s.members, ∃ j ∈ s.db.jobs, j.id = m.job.id ∧ j.status = .extracting := by
  obtain ⟨s, hs⟩ : ∃ s, strandedCohort = some s := Option.isSome_iff_exists.mp (by decide +kernel)
  have hstranded : ∀ s ∈ strandedCohort,
      s.phase = .returned (.error (.embeddingExecutor "embedding executor has stopped")) ∧
        (∀ m ∈ s.members, m.sent = false) ∧
        ∃ m ∈ s.members, ∃ j ∈ s.db.jobs.rows, j.id = m.job.id ∧ j.status = .extracting := by
    decide +kernel
  exact ⟨s, cohortAfter_reachable rfl hs, hstranded s hs⟩

end Server
