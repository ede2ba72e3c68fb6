-- SUMMARY: In every session, a document shows the status of its one active job, or it is done or failed and has none.
import Supermemory.Storage.Session

/-!
# Documents and jobs agree

A document is at rest, with no active job, or it has one active job of its revision
and shows that job's status. Every operation moves the two tables together: it
advances the active job with its document, ends both, or starts both.
-/

namespace Storage

section Tables

variable {documents : Table Document Document.id} {jobs jobs' : Table Job Job.id} {id : String}
  {d : Document} {j : Job}

/-- No job of the document is active. -/
def Idle (jobs : Table Job Job.id) (id : String) : Prop :=
  ∀ j ∈ jobs, j.documentId = id → ¬ j.status.IsActive

/-- `j` is the one active job of the document. -/
structure Busy (jobs : Table Job Job.id) (id : String) (j : Job) : Prop where
  mem : j ∈ jobs
  owner : j.documentId = id
  active : j.status.IsActive
  only : ∀ i ∈ jobs, i.documentId = id → i.status.IsActive → i = j

/-- The status a document shows while `j` is active: that of a document job, and `indexing` for
    a memory job, which is queued or extracting. -/
def Shows (status : DocumentState) (j : Job) : Prop :=
  match j.kind with
  | .document => status = j.status
  | .memory => status = .indexing ∧ (j.status = .queued ∨ j.status = .extracting)

/-- A document agrees with its jobs. -/
inductive Agrees (jobs : Table Job Job.id) (d : Document) : Prop where
  | idle (h : Idle jobs d.id) (hstatus : d.status = .done ∨ d.status = .failed)
  | busy (j : Job) (h : Busy jobs d.id j) (hrev : j.revision = d.revision) (hstatus : Shows d.status j)

/-- Every document agrees with its jobs. -/
def Agreement (documents : Table Document Document.id) (jobs : Table Job Job.id) : Prop :=
  ∀ d ∈ documents, Agrees jobs d

/-- The statuses a document shows are active ones. -/
theorem Shows.isActive {status : DocumentState} (h : Shows status j) (hj : j.status.IsActive) :
    status.IsActive := by
  unfold Shows at h
  split at h
  · exact h ▸ hj
  · rw [h.1]
    decide

/-! ## Rows that change -/

theorem Busy.congr (h : Busy jobs id j) (hsame : ∀ i, i.documentId = id → (i ∈ jobs' ↔ i ∈ jobs)) :
    Busy jobs' id j :=
  ⟨(hsame j h.owner).mpr h.mem, h.owner, h.active,
    fun i hi hown => h.only i ((hsame i hown).mp hi) hown⟩

theorem Idle.congr (h : Idle jobs id) (hsame : ∀ i, i.documentId = id → (i ∈ jobs' ↔ i ∈ jobs)) :
    Idle jobs' id :=
  fun i hi hown => h i ((hsame i hown).mp hi) hown

theorem Agrees.congr (h : Agrees jobs d) {d' : Document} (hid : d'.id = d.id)
    (hrev : d'.revision = d.revision) (hstatus : d'.status = d.status)
    (hsame : ∀ i, i.documentId = d.id → (i ∈ jobs' ↔ i ∈ jobs)) : Agrees jobs' d' := by
  rcases h with ⟨hidle, hrest⟩ | ⟨j, hbusy, hjrev, hshows⟩
  · exact .idle (hid ▸ hidle.congr hsame) (hstatus ▸ hrest)
  · exact .busy j (hid ▸ hbusy.congr hsame) (hjrev.trans hrev.symm) (hstatus ▸ hshows)

section Update

variable {p : Job → Prop} [DecidablePred p] {f : Job → Job} {hf : ∀ r, r.id = (f r).id}

/-- An update of rows of one document keeps the rows of the others. -/
theorem mem_update_other {i : Job} (hp : ∀ r ∈ jobs, p r → r.documentId = id)
    (hsame : ∀ r, (f r).documentId = r.documentId) (hi : i.documentId ≠ id) :
    i ∈ jobs.update p f hf ↔ i ∈ jobs := by
  rw [Table.mem_update]
  constructor
  · rintro ⟨r, hr, rfl⟩
    split at hi
    · rename_i hpr
      exact absurd (hp r hr hpr) (hsame r ▸ hi)
    · rwa [if_neg ‹_›]
  · intro hmem
    exact ⟨i, hmem, by rw [if_neg fun hpi => hi (hp i hmem hpi)]⟩

/-- The active job stays the only one when its row changes and it stays active. -/
theorem Busy.update (h : Busy jobs id j) (hp : ∀ r ∈ jobs, p r → r = j) (hpj : p j)
    (hsame : ∀ r, (f r).documentId = r.documentId) (hactive : (f j).status.IsActive) :
    Busy (jobs.update p f hf) id (f j) := by
  refine ⟨Table.mem_update.mpr ⟨j, h.mem, (if_pos hpj).symm⟩, (hsame j).trans h.owner, hactive, ?_⟩
  intro i hi hown hi_active
  obtain ⟨r, hr, rfl⟩ := Table.mem_update.mp hi
  by_cases hpr : p r
  · rw [if_pos hpr, hp r hr hpr]
  · rw [if_neg hpr] at hown hi_active
    obtain rfl := h.only r hr hown hi_active
    exact absurd hpj hpr

/-- The document is idle when the row of its active job stops being active. -/
theorem Busy.retire (h : Busy jobs id j) (hp : ∀ r ∈ jobs, p r → r = j) (hpj : p j)
    (hactive : ¬ (f j).status.IsActive) : Idle (jobs.update p f hf) id := by
  intro i hi hown hi_active
  obtain ⟨r, hr, rfl⟩ := Table.mem_update.mp hi
  by_cases hpr : p r
  · rw [if_pos hpr, hp r hr hpr] at hi_active
    exact hactive hi_active
  · rw [if_neg hpr] at hown hi_active
    obtain rfl := h.only r hr hown hi_active
    exact hpr hpj

/-- An update that keeps the activity of every row keeps the active job of every document. -/
theorem Busy.update_all (h : Busy jobs id j) (hsame : ∀ r, SameJob r (f r))
    (hactive : ∀ r ∈ jobs, p r → ((f r).status.IsActive ↔ r.status.IsActive)) :
    Busy (jobs.update p f hf) id (if p j then f j else j) := by
  refine ⟨Table.update_mem h.mem, ?_, ?_, ?_⟩
  · split
    · exact (hsame j).2.1.trans h.owner
    · exact h.owner
  · split
    · exact (hactive j h.mem ‹_›).mpr h.active
    · exact h.active
  · intro i hi hown hi_active
    obtain ⟨r, hr, rfl⟩ := Table.mem_update.mp hi
    have hrj : r = j := by
      by_cases hpr : p r
      · rw [if_pos hpr] at hown hi_active
        exact h.only r hr ((hsame r).2.1.symm.trans hown) ((hactive r hr hpr).mp hi_active)
      · rw [if_neg hpr] at hown hi_active
        exact h.only r hr hown hi_active
    rw [hrj]

theorem Idle.update_all (h : Idle jobs id) (hsame : ∀ r, SameJob r (f r))
    (hactive : ∀ r ∈ jobs, p r → ((f r).status.IsActive ↔ r.status.IsActive)) :
    Idle (jobs.update p f hf) id := by
  intro i hi hown hi_active
  obtain ⟨r, hr, rfl⟩ := Table.mem_update.mp hi
  by_cases hpr : p r
  · rw [if_pos hpr] at hown hi_active
    exact h r hr ((hsame r).2.1.symm.trans hown) ((hactive r hr hpr).mp hi_active)
  · rw [if_neg hpr] at hown hi_active
    exact h r hr hown hi_active

/-- Rows that are not active may change as long as none becomes active. -/
theorem Agrees.update_inactive (h : Agrees jobs d) (hp : ∀ r ∈ jobs, p r → ¬ r.status.IsActive)
    (hactive : ∀ r ∈ jobs, p r → ¬ (f r).status.IsActive) : Agrees (jobs.update p f hf) d := by
  have hback : ∀ i ∈ jobs.update p f hf, i.status.IsActive → i ∈ jobs := by
    intro i hi hi_active
    obtain ⟨r, hr, rfl⟩ := Table.mem_update.mp hi
    by_cases hpr : p r
    · rw [if_pos hpr] at hi_active
      exact absurd hi_active (hactive r hr hpr)
    · rwa [if_neg hpr]
  rcases h with ⟨hidle, hrest⟩ | ⟨j, hbusy, hjrev, hshows⟩
  · exact .idle (fun i hi hown ha => hidle i (hback i hi ha) hown ha) hrest
  · have hnot : ¬ p j := fun hpj => hp j hbusy.mem hpj hbusy.active
    refine .busy j ⟨?_, hbusy.owner, hbusy.active, ?_⟩ hjrev hshows
    · exact Table.mem_update.mpr ⟨j, hbusy.mem, (if_neg hnot).symm⟩
    · exact fun i hi hown ha => hbusy.only i (hback i hi ha) hown ha

end Update

/-- A job inserted for an idle document is its only active one. -/
theorem Idle.insert (h : Idle jobs id) (hins : jobs.insert j = some jobs') (hown : j.documentId = id)
    (hactive : j.status.IsActive) : Busy jobs' id j := by
  refine ⟨(Table.mem_insert hins).mpr (.inr rfl), hown, hactive, ?_⟩
  intro i hi hi_own hi_active
  rcases (Table.mem_insert hins).mp hi with hi | rfl
  · exact absurd hi_active (h i hi hi_own)
  · rfl

/-- Only one document and its jobs change, and in the end they agree. -/
theorem Agreement.change {documents' : Table Document Document.id} (h : Agreement documents jobs)
    (id : String)
    (hdocs : ∀ d' ∈ documents', d'.id ≠ id → ∃ d ∈ documents, d'.id = d.id ∧
      d'.revision = d.revision ∧ d'.status = d.status)
    (hjobs : ∀ i, i.documentId ≠ id → (i ∈ jobs' ↔ i ∈ jobs))
    (hid : ∀ d' ∈ documents', d'.id = id → Agrees jobs' d') : Agreement documents' jobs' := by
  intro d' hd'
  by_cases hd'id : d'.id = id
  · exact hid d' hd' hd'id
  · obtain ⟨d, hd, hsame, hrev, hstatus⟩ := hdocs d' hd' hd'id
    exact (h d hd).congr hsame hrev hstatus fun i hi => hjobs i fun hne =>
      hd'id (hsame.trans (hi.symm.trans hne))

/-- An active job is the one its document shows. -/
theorem Agreement.busy (h : Agreement documents jobs) (hd : d ∈ documents) (hj : j ∈ jobs)
    (hown : j.documentId = d.id) (hactive : j.status.IsActive) :
    Busy jobs d.id j ∧ j.revision = d.revision ∧ Shows d.status j := by
  rcases h d hd with ⟨hidle, _⟩ | ⟨i, hbusy, hrev, hshows⟩
  · exact absurd hactive (hidle j hj hown)
  · obtain rfl := hbusy.only j hj hown hactive
    exact ⟨hbusy, hrev, hshows⟩

/-- Setting the status of one document leaves the others. -/
theorem setStatus_other {d' : Document} {status : DocumentState}
    (hd' : d' ∈ documents.update (fun e => e.id = d.id ∧ e.revision = d.revision)
      (fun e => { e with status })) (hne : d'.id ≠ d.id) :
    ∃ e ∈ documents, d'.id = e.id ∧ d'.revision = e.revision ∧ d'.status = e.status := by
  obtain ⟨e, he, rfl⟩ := Table.mem_update.mp hd'
  refine ⟨e, he, ?_⟩
  split at hne
  · rename_i hguard
    exact absurd hguard.1 hne
  · rename_i hguard
    rw [if_neg hguard]
    exact ⟨rfl, rfl, rfl⟩

theorem setStatus_self {d' : Document} {status : DocumentState} (hd : d ∈ documents)
    (hd' : d' ∈ documents.update (fun e => e.id = d.id ∧ e.revision = d.revision)
      (fun e => { e with status })) (hid : d'.id = d.id) : d' = { d with status } := by
  obtain ⟨e, he, heid, rfl⟩ := Table.of_mem_update hd'
  obtain rfl := Table.eq_of_key he hd (heid.trans hid)
  exact if_pos ⟨rfl, rfl⟩

/-- The active job of a document and the document change together: the job stays active and the
    document shows it, or the job ends and the document is done or failed. -/
theorem Agreement.move {p : Job → Prop} [DecidablePred p] {f : Job → Job} {hf : ∀ r, r.id = (f r).id}
    {status : DocumentState} (h : Agreement documents jobs) (hd : d ∈ documents)
    (hbusy : Busy jobs d.id j) (hrev : j.revision = d.revision) (hp : ∀ r, p r → r.id = j.id)
    (hpj : p j) (hsame : ∀ r, SameJob r (f r))
    (hnew : (f j).status.IsActive ∧ Shows status (f j) ∨
      ¬ (f j).status.IsActive ∧ (status = .done ∨ status = .failed)) :
    Agreement (documents.update (fun e => e.id = d.id ∧ e.revision = d.revision)
      (fun e => { e with status })) (jobs.update p f hf) := by
  have honly : ∀ r ∈ jobs, p r → r = j := fun r hr hpr => Table.eq_of_key hr hbusy.mem (hp r hpr)
  have hown : ∀ r ∈ jobs, p r → r.documentId = d.id := fun r hr hpr => honly r hr hpr ▸ hbusy.owner
  refine h.change d.id (fun d' hd' hne => setStatus_other hd' hne)
    (fun i hi => mem_update_other hown (fun r => (hsame r).2.1) hi) ?_
  intro d' hd' hid
  obtain rfl := setStatus_self hd hd' hid
  rcases hnew with ⟨hactive, hshows⟩ | ⟨hactive, hrest⟩
  · exact .busy (f j) (hbusy.update honly hpj (fun r => (hsame r).2.1) hactive)
      ((hsame j).2.2.2.trans hrev) hshows
  · exact .idle (hbusy.retire honly hpj hactive) hrest

/-- The active job of a document changes and stays active, and the document shows it still. -/
theorem Agreement.moveJob {p : Job → Prop} [DecidablePred p] {f : Job → Job}
    {hf : ∀ r, r.id = (f r).id} (h : Agreement documents jobs) (hd : d ∈ documents)
    (hbusy : Busy jobs d.id j) (hrev : j.revision = d.revision) (hp : ∀ r, p r → r.id = j.id)
    (hpj : p j) (hsame : ∀ r, SameJob r (f r)) (hactive : (f j).status.IsActive)
    (hshows : Shows d.status (f j)) : Agreement documents (jobs.update p f hf) := by
  have honly : ∀ r ∈ jobs, p r → r = j := fun r hr hpr => Table.eq_of_key hr hbusy.mem (hp r hpr)
  have hown : ∀ r ∈ jobs, p r → r.documentId = d.id := fun r hr hpr => honly r hr hpr ▸ hbusy.owner
  refine h.change d.id (fun d' hd' _ => ⟨d', hd', rfl, rfl, rfl⟩)
    (fun i hi => mem_update_other hown (fun r => (hsame r).2.1) hi) ?_
  intro d' hd' hid
  obtain rfl := Table.eq_of_key hd' hd hid
  exact .busy (f j) (hbusy.update honly hpj (fun r => (hsame r).2.1) hactive)
    ((hsame j).2.2.2.trans hrev) hshows

end Tables

/-! ## The operations -/

variable {env : Env} {now : Time} {s : System} {db' : Database}

/-- Every document of the store agrees with its jobs. -/
abbrev Database.Agree (db : Database) : Prop := Agreement db.documents db.jobs

/-- A handle whose job row is claimed: its document shows the row, at the handle's revision. -/
structure Holds (db : Database) (k : ClaimedJob) (d : Document) (j : Job) : Prop where
  document : d ∈ db.documents
  busy : Busy db.jobs d.id j
  documentId : k.documentId = d.id
  revision : k.revision = d.revision
  id : j.id = k.id
  kind : j.kind = .document
  claimed : j.status.IsClaimed
  current : j.revision = d.revision

theorem Consistent.holds {k : ClaimedJob} {d : Document} (hs : Consistent env s)
    (h : s.db.Agree) (hk : k ∈ s.jobs)
    (hclaimed : ∀ j ∈ s.db.jobs, j.id = k.id → j.status.IsClaimed) (hd : d ∈ s.db.documents)
    (hid : d.id = k.documentId) : ∃ j, Holds s.db k d j := by
  obtain ⟨j, hj, hjid⟩ := hs.handleKept k hk d hd hid
  obtain ⟨hkind, hdoc, hrev⟩ := hs.handleRow k hk j hj hjid
  obtain ⟨hbusy, hcurrent, _⟩ := h.busy hd hj (hdoc.trans hid.symm) (hclaimed j hj hjid).isActive
  exact ⟨j, hd, hbusy, hid.symm, hrev.symm.trans hcurrent, hjid, hkind, hclaimed j hj hjid, hcurrent⟩

/-- A document job shows its status, so a move of its row moves the document to the same status. -/
theorem shows_document {j : Job} (h : j.kind = .document) : Shows j.status j := by
  unfold Shows
  rw [h]

theorem Agreement.claimJob {k : ClaimedJob} (h : s.db.Agree)
    (hclaim : claimJob now s.db = (some k, db')) : db'.Agree := by
  obtain ⟨j, d, hj, hd, hown, hkind, hstatus, hrev, rfl, rfl⟩ := claimJob_some hclaim
  have hactive : j.status.IsActive := by rw [hstatus]; exact DocumentState.isActive_queued
  obtain ⟨hbusy, _, _⟩ := h.busy hd hj hown.symm hactive
  dsimp only [startJob, Database.setDocumentStatus, Database.Agree]
  rw [hrev]
  refine h.move hd hbusy hrev (fun _ hp => hp.1) ⟨rfl, hrev, hstatus⟩ (fun _ => ⟨rfl, rfl, rfl, rfl⟩) ?_
  exact .inl ⟨DocumentState.isActive_extracting, shows_document hkind⟩

theorem Agreement.claimMemoryJob {m : ClaimedMemoryJob} (h : s.db.Agree)
    (hclaim : claimMemoryJob now s.db = .ok (some m, db')) : db'.Agree := by
  obtain ⟨j, d, hj, hd, hown, hkind, hstatus, hrev, hmid, _, hmrev, rfl⟩ := claimMemoryJob_some hclaim
  have hactive : j.status.IsActive := by rw [hstatus]; exact DocumentState.isActive_queued
  obtain ⟨hbusy, _, hshows⟩ := h.busy hd hj hown.symm hactive
  dsimp only [startJob, Database.Agree]
  rw [hmid, hmrev]
  refine h.moveJob hd hbusy hrev (fun _ hp => hp.1) ⟨rfl, rfl, hstatus⟩ (fun _ => ⟨rfl, rfl, rfl, rfl⟩)
    DocumentState.isActive_extracting ?_
  unfold Shows at hshows ⊢
  rw [hkind] at hshows ⊢
  exact ⟨hshows.1, .inr rfl⟩

theorem Agreement.markJobStage {k : ClaimedJob} {stage : DocumentState} (h : s.db.Agree)
    (hs : Consistent env s) (hk : k ∈ s.jobs)
    (hclaimed : ∀ j ∈ s.db.jobs, j.id = k.id → j.status.IsClaimed)
    (hmark : markJobStage k stage s.db = .ok db') : db'.Agree := by
  obtain ⟨expected, hexpected, ⟨i, hi, hiid, _, histatus⟩, ⟨d, hd, hid, _⟩, rfl⟩ := markJobStage_ok hmark
  obtain ⟨j, hh⟩ := hs.holds h hk hclaimed hd hid
  obtain rfl := Table.eq_of_key hi hh.busy.mem (hiid.trans hh.id.symm)
  dsimp only [advanceJob, Database.setDocumentStatus, Database.Agree]
  rw [hh.documentId, hh.revision, ← hh.id]
  refine h.move hd hh.busy hh.current (fun _ hp => hp.1) ⟨rfl, hh.current, histatus⟩
    (fun _ => ⟨rfl, rfl, rfl, rfl⟩) (.inl ⟨(expectedStage_claimed hexpected).1.isActive, ?_⟩)
  exact shows_document hh.kind

theorem Agreement.failJob {k : ClaimedJob} {error : String} (h : s.db.Agree)
    (hs : Consistent env s) (hk : k ∈ s.jobs)
    (hclaimed : ∀ j ∈ s.db.jobs, j.id = k.id → j.status.IsClaimed) : (failJob k error s.db).Agree := by
  dsimp only [Storage.failJob, Database.setDocumentStatus, Database.Agree]
  by_cases hdoc : ∃ d ∈ s.db.documents, d.id = k.documentId
  · obtain ⟨d, hd, hid⟩ := hdoc
    obtain ⟨j, hh⟩ := hs.holds h hk hclaimed hd hid
    rw [hh.documentId, hh.revision, ← hh.id]
    exact h.move hd hh.busy hh.current (fun _ hp => hp.1) ⟨rfl, hh.current⟩
      (fun _ => ⟨rfl, rfl, rfl, rfl⟩) (.inr ⟨DocumentState.not_isActive_failed, .inr rfl⟩)
  · -- the document is gone, and the row of the handle with it
    rw [Table.update_eq_self fun d hd hguard => hdoc ⟨d, hd, hguard.1⟩, Table.update_eq_self ?_]
    · exact h
    · rintro j hj ⟨hjid, _⟩
      obtain ⟨d, hd, hown⟩ := hs.owner j hj
      exact hdoc ⟨d, hd, hown.trans (hs.handleRow k hk j hj hjid).2.1⟩

theorem Agreement.publish {k : ClaimedJob} {chunks : List String} {schedule : Bool} (h : s.db.Agree)
    (hs : Consistent env s) (hk : k ∈ s.jobs)
    (hclaimed : ∀ j ∈ s.db.jobs, j.id = k.id → j.status.IsClaimed)
    (hp : Publishes env now k chunks schedule s.db db') : db'.Agree := by
  obtain ⟨hcurrent, dbc, hsame, -, -, -, hcommit⟩ := hp
  obtain ⟨d, hd, hid, _⟩ := documentRevision_eq_some.mp hcurrent
  obtain ⟨j, hh⟩ := hs.holds h hk hclaimed hd hid
  have honly : ∀ r ∈ s.db.jobs, r.id = k.id → r = j :=
    fun r hr hrid => Table.eq_of_key hr hh.busy.mem (hrid.trans hh.id.symm)
  cases schedule with
  | false =>
    obtain rfl : db' = _ := hcommit
    dsimp only [finishJob, Database.setDocumentStatus, Database.Agree]
    rw [hsame.documents, hsame.jobs, hh.documentId, hh.revision, ← hh.id]
    exact h.move hd hh.busy hh.current (fun _ hp => hp.1) ⟨rfl, hh.current, hh.claimed⟩
      (fun _ => ⟨rfl, rfl, rfl, rfl⟩) (.inr ⟨DocumentState.not_isActive_done, .inl rfl⟩)
  | true =>
    -- the row of the handle ends, and a queued memory job starts
    obtain ⟨dbj, hinsert, rfl⟩ := hcommit
    obtain ⟨_, jobs, hins, rfl⟩ := insertJob_ok hinsert
    dsimp only [finishJob] at hins
    rw [hsame.jobs, hh.documentId, hh.revision] at hins
    dsimp only [finishJob, Database.setDocumentStatus, Database.Agree]
    rw [hsame.documents, hh.documentId, hh.revision]
    have hidle : Idle (s.db.jobs.update
        (fun r => r.id = k.id ∧ r.revision = d.revision ∧ r.status.IsClaimed)
        (fun r => { r with status := .done, lastError := none })) d.id :=
      hh.busy.retire (fun r hr hpr => honly r hr hpr.1) ⟨hh.id, hh.current, hh.claimed⟩
        DocumentState.not_isActive_done
    have hown : ∀ r ∈ s.db.jobs, r.id = k.id ∧ r.revision = d.revision ∧ r.status.IsClaimed →
        r.documentId = d.id := fun r hr hpr => honly r hr hpr.1 ▸ hh.busy.owner
    refine h.change d.id (fun d' hd' hne => setStatus_other hd' hne) (fun i hi => ?_) ?_
    · rw [Table.mem_insert hins]
      refine Iff.trans (or_iff_left fun heq => hi ?_) (mem_update_other hown (fun _ => rfl) hi)
      rw [heq]
      rfl
    · intro d' hd' hd'id
      obtain rfl := setStatus_self hd hd' hd'id
      exact .busy _ (hidle.insert hins rfl DocumentState.isActive_queued) rfl ⟨rfl, .inl rfl⟩

theorem Agreement.deleteDocument (h : s.db.Agree) (id : String) : (s.db.deleteDocument id).Agree := by
  refine h.change id (fun d' hd' _ => ⟨d', (Table.mem_delete.mp hd').1, rfl, rfl, rfl⟩)
    (fun i hi => ?_) fun d' hd' hid => absurd hid (Table.mem_delete.mp hd').2
  rw [Database.deleteDocument, Table.mem_delete]
  exact and_iff_left hi

/-- An active memory row is the job its document shows: the document is indexing. -/
theorem Agreement.memoryBusy {d : Document} {j : Job} (h : s.db.Agree) (hd : d ∈ s.db.documents)
    (hj : j ∈ s.db.jobs) (hown : j.documentId = d.id) (hkind : j.kind = .memory)
    (hactive : j.status.IsActive) :
    Busy s.db.jobs d.id j ∧ j.revision = d.revision ∧ d.status = .indexing ∧
      (j.status = .queued ∨ j.status = .extracting) := by
  obtain ⟨hbusy, hrev, hshows⟩ := h.busy hd hj hown hactive
  unfold Shows at hshows
  rw [hkind] at hshows
  exact ⟨hbusy, hrev, hshows⟩

/-- The row of a memory handle whose revision is gone is not active. -/
theorem Agreement.stale_inactive {m : ClaimedMemoryJob} {j : Job} (h : s.db.Agree)
    (hs : Consistent env s) (hm : m ∈ s.memoryJobs)
    (hstale : s.db.documentRevision m.documentId ≠ some m.revision) (hj : j ∈ s.db.jobs)
    (hid : j.id = m.id) : ¬ j.status.IsActive := by
  intro hactive
  obtain ⟨_, hdoc, hrev⟩ := hs.memoryHandleRow m hm j hj hid
  obtain ⟨d, hd, hown⟩ := hs.owner j hj
  obtain ⟨_, hcurrent, _⟩ := h.busy hd hj hown.symm hactive
  exact hstale (documentRevision_eq_some.mpr ⟨d, hd, hown.trans hdoc, hcurrent.symm.trans hrev⟩)

/-- The extracting row of a memory handle ends together with its document. -/
theorem Agreement.finishMemory {p : Job → Prop} [DecidablePred p] {f : Job → Job}
    {hf : ∀ r, r.id = (f r).id} {j : Job} {d : Document} {status : DocumentState} (h : s.db.Agree)
    (hd : d ∈ s.db.documents) (hj : j ∈ s.db.jobs) (hown : j.documentId = d.id)
    (hextracting : j.status = .extracting) (hp : ∀ r, p r → r.id = j.id) (hpj : p j)
    (hsame : ∀ r, SameJob r (f r)) (hended : ¬ (f j).status.IsActive)
    (hrest : status = .done ∨ status = .failed) :
    Agreement (s.db.documents.update (fun e => e.id = d.id ∧ e.revision = d.revision)
      (fun e => { e with status })) (s.db.jobs.update p f hf) := by
  have hactive : j.status.IsActive := by rw [hextracting]; exact DocumentState.isActive_extracting
  obtain ⟨hbusy, hrev, _⟩ := h.busy hd hj hown hactive
  exact h.move hd hbusy hrev hp hpj hsame (.inr ⟨hended, hrest⟩)

theorem Agreement.completeMemoryJob {m : ClaimedMemoryJob} (h : s.db.Agree) (hs : Consistent env s)
    (hm : m ∈ s.memoryJobs) (hcomplete : completeMemoryJob m s.db = .ok db') : db'.Agree := by
  rcases completeMemoryJob_ok hcomplete with
    ⟨hstale, rfl⟩ | ⟨hcurrent, ⟨j, hj, hid, hrev, hextracting⟩, rfl⟩
  · have hinactive : ∀ r ∈ s.db.jobs, r.id = m.id ∧ r.revision = m.revision → ¬ r.status.IsActive :=
      fun r hr hpr => h.stale_inactive hs hm hstale hr hpr.1
    dsimp only [Database.Agree]
    intro d hd
    exact (h d hd).update_inactive hinactive fun _ _ _ => DocumentState.not_isActive_failed
  · obtain ⟨d, hd, hdid, hdrev⟩ := documentRevision_eq_some.mp hcurrent
    have hown : j.documentId = d.id := (hs.memoryHandleRow m hm j hj hid).2.1.trans hdid.symm
    dsimp only [finishMemoryJob, Database.setDocumentStatus, Database.Agree]
    rw [← hdid, ← hdrev]
    exact h.finishMemory hd hj hown hextracting (fun r hp => hp.1.trans hid.symm)
      ⟨hid, hrev.trans hdrev.symm, hextracting⟩ (fun _ => ⟨rfl, rfl, rfl, rfl⟩)
      DocumentState.not_isActive_done (.inl rfl)

theorem Agreement.retryMemoryJob {m : ClaimedMemoryJob} {errorKind error : String}
    {retryDelay : Option Nat} (h : s.db.Agree) (hs : Consistent env s) (hm : m ∈ s.memoryJobs)
    (hretry : retryMemoryJob now m errorKind error retryDelay s.db = .ok db') : db'.Agree := by
  rcases retryMemoryJob_ok hretry with
    ⟨hstale, rfl⟩ | ⟨hcurrent, ⟨j, hj, hid, hrev, hextracting⟩, _, hcase⟩
  · dsimp only [markMemoryJobStale, Database.Agree]
    rw [Table.update_eq_self fun r hr hpr => h.stale_inactive hs hm hstale hr hpr.1 hpr.2.2]
    exact h
  · obtain ⟨d, hd, hdid, hdrev⟩ := documentRevision_eq_some.mp hcurrent
    obtain ⟨hkind, hdoc, _⟩ := hs.memoryHandleRow m hm j hj hid
    have hown : j.documentId = d.id := hdoc.trans hdid.symm
    rcases hcase with ⟨_, rfl⟩ | rfl
    · have hactive : j.status.IsActive := by rw [hextracting]; exact DocumentState.isActive_extracting
      obtain ⟨hbusy, hcurrent, hindexing, _⟩ := h.memoryBusy hd hj hown hkind hactive
      dsimp only [retriedJob, Database.Agree]
      refine h.moveJob hd hbusy hcurrent (fun r hp => hp.1.trans hid.symm) ⟨hid, hrev, hextracting⟩
        (fun _ => ⟨rfl, rfl, rfl, rfl⟩) DocumentState.isActive_queued ?_
      unfold Shows
      rw [hkind]
      exact ⟨hindexing, .inl rfl⟩
    · dsimp only [retriedJob, Database.setDocumentStatus, Database.Agree]
      rw [← hdid, ← hdrev]
      exact h.finishMemory hd hj hown hextracting (fun r hp => hp.1.trans hid.symm)
        ⟨hid, hrev.trans hdrev.symm, hextracting⟩ (fun _ => ⟨rfl, rfl, rfl, rfl⟩)
        DocumentState.not_isActive_failed (.inr rfl)

theorem Agreement.cacheMemoryExtraction {m : ClaimedMemoryJob} {result : String} (h : s.db.Agree)
    (hs : Consistent env s) (hm : m ∈ s.memoryJobs)
    (hstarted : ∀ j ∈ s.db.jobs, j.id = m.id → j.status ≠ .queued) :
    (cacheMemoryExtraction m result s.db).2.Agree := by
  rcases cacheMemoryExtraction_cases m result s.db with
    ⟨⟨j, hj, hid, hrev, hextracting, hcurrent⟩, heq⟩ | ⟨hnone, heq⟩
  · obtain ⟨d, hd, hown, hdrev⟩ := documentRevision_eq_some.mp hcurrent
    have hactive : j.status.IsActive := by rw [hextracting]; exact DocumentState.isActive_extracting
    obtain ⟨hbusy, _, hshows⟩ := h.busy hd hj hown.symm hactive
    rw [heq]
    dsimp only [Database.Agree]
    exact h.moveJob hd hbusy hdrev.symm (fun r hp => hp.1.trans hid.symm)
      ⟨hid, hrev, hextracting, hcurrent⟩ (fun _ => ⟨rfl, rfl, rfl, rfl⟩) hactive hshows
  · -- an active row that was started is extracting at its document's revision, so it can be cached
    have hinactive : ∀ r ∈ s.db.jobs,
        ¬ (r.id = m.id ∧ r.revision = m.revision ∧ r.status.IsActive) := by
      rintro r hr ⟨hid, hrev, hactive⟩
      obtain ⟨hkind, _, _⟩ := hs.memoryHandleRow m hm r hr hid
      obtain ⟨d, hd, hown⟩ := hs.owner r hr
      obtain ⟨_, hcurrent, _, hqueued | hextracting⟩ := h.memoryBusy hd hr hown.symm hkind hactive
      · exact hstarted r hr hid hqueued
      · exact hnone r hr ⟨hid, hrev, hextracting,
          documentRevision_eq_some.mpr ⟨d, hd, hown, hcurrent.symm⟩⟩
    rw [heq]
    dsimp only [markMemoryJobStale, Database.Agree]
    rw [Table.update_eq_self hinactive]
    exact h

theorem Agreement.reconcileMemories {batch : Batch} {expectedRevision : Option Nat}
    {completionJobId : Option String} {proposals : List MemoryProposal} {records : List MemoryRecord}
    (h : s.db.Agree) (hreconcile : reconcileMemoriesFor env now batch expectedRevision completionJobId
      proposals s.db = .ok (records, db')) : db'.Agree := by
  obtain ⟨source, hsource, hid, _, t, hloop, _, hfinish⟩ := reconcileMemoriesFor_ok hreconcile
  have hmemories : MemoriesOnly s.db t.db := reconcileProposals_memoriesOnly hloop
  rcases hfinish with ⟨_, rfl⟩ | ⟨jobId, _, hfinish⟩
  · rw [Database.Agree, hmemories.documents, hmemories.jobs]
    exact h
  · obtain ⟨⟨j, hj, hjid, hown, hrev, hextracting⟩, rfl⟩ := finishReconciliation_ok hfinish
    rw [hmemories.jobs] at hj
    dsimp only [finishedReconciliation, Database.setDocumentStatus, Database.Agree]
    rw [hmemories.documents, hmemories.jobs, ← hid]
    exact h.finishMemory hsource hj (hown.trans hid.symm) hextracting (fun r hp => hp.1.trans hjid.symm)
      ⟨hjid, hown.trans hid.symm, hrev, hextracting⟩ (fun _ => ⟨rfl, rfl, rfl, rfl⟩)
      DocumentState.not_isActive_done (.inl rfl)

/-- Enqueueing gives a queued document without active jobs its one active job. -/
theorem enqueue_agrees {dbu : Database} {d : Document} {enqueued : Bool} (hd : d ∈ dbu.documents)
    (hstatus : d.status = .queued) (hidle : Idle dbu.jobs d.id)
    (henqueue : enqueueUnlessActive env now dbu d.id = .ok (enqueued, db')) :
    db'.documents = dbu.documents ∧ Agrees db'.jobs d ∧
      ∀ i, i.documentId ≠ d.id → (i ∈ db'.jobs ↔ i ∈ dbu.jobs) := by
  rcases enqueueUnlessActive_ok henqueue with ⟨⟨j, hj, hown, _, _, hactive⟩, _⟩ | ⟨_, e, he, heid, hinsert⟩
  · exact absurd hactive (hidle j hj hown)
  · obtain rfl := Table.eq_of_key he hd heid
    obtain ⟨_, jobs, hins, rfl⟩ := insertJob_ok hinsert
    refine ⟨rfl, .busy _ (hidle.insert hins rfl DocumentState.isActive_queued) rfl hstatus, fun i hi => ?_⟩
    refine Iff.trans (Table.mem_insert hins) (or_iff_left fun heq => hi ?_)
    rw [heq]
    rfl

theorem Agreement.requeue {existing : Document} {input : UpsertDocument} {hash : String}
    {result : UpsertResult} (h : s.db.Agree) (hs : Consistent env s) (hexisting : existing ∈ s.db.documents)
    (hinactive : ¬ hasActiveDocumentJob s.db existing.id)
    (hrequeue : requeue env now s.db existing input hash = .ok (result, db')) : db'.Agree := by
  obtain ⟨_, dbu, _, hupdate, henqueue⟩ := requeue_ok hrequeue
  have hr := updateFull_rewrites hupdate
  obtain ⟨d', hd', hid'⟩ := hr.documentKept existing hexisting
  obtain ⟨d, hd, hid, ⟨_, hne⟩ | ⟨_, hrev, hstatus⟩⟩ := hr.document d' hd'
  · exact absurd (hid.symm.trans hid') hne
  obtain rfl := Table.eq_of_key hd hexisting (hid.symm.trans hid')
  -- a document job would have kept the document as it is, and memory jobs were failed
  have hidle : Idle dbu.jobs d'.id := by
    intro i hi hown hactive
    obtain ⟨j, hj, ⟨_, hdoc, hkind, hjrev⟩, heq | ⟨_, _, _, hfailed⟩⟩ := hr.job i hi
    · subst heq
      cases hi_kind : i.kind with
      | document =>
        obtain ⟨_, hcurrent, _⟩ := h.busy hd hj (hown.trans hid) hactive
        exact hinactive ⟨i, hj, hown.trans hid, by
          rw [hcurrent]
          exact (documentRevision_eq_some.mpr ⟨d, hd, rfl, rfl⟩).symm, hi_kind, hactive⟩
      | memory =>
        have hnew := hr.stale i hi hi_kind hactive d' hd' hown.symm hid'
        have hle := hs.revision i hj d hd (hid'.symm.trans hown.symm)
        omega
    · exact DocumentState.not_isActive_failed (hfailed ▸ hactive)
  rw [← hid'] at henqueue
  obtain ⟨hdocuments, hagrees, hothers⟩ := enqueue_agrees hd' hstatus hidle henqueue
  refine h.change d'.id (fun e' he' hne => ?_) (fun i hi => (hothers i hi).trans ?_) fun e' he' heid => ?_
  · rw [hdocuments] at he'
    obtain ⟨e, he, _, ⟨rfl, _⟩ | ⟨heid, _, _⟩⟩ := hr.document e' he'
    · exact ⟨e', he, rfl, rfl, rfl⟩
    · exact absurd (‹e'.id = e.id›.trans (heid.trans hid'.symm)) hne
  · constructor
    · intro hi'
      obtain ⟨j, hj, ⟨_, hdoc, _, _⟩, rfl | ⟨hstale, _⟩⟩ := hr.job i hi'
      · exact hj
      · exact absurd (hdoc.trans (hstale.trans hid'.symm)) hi
    · intro hi'
      obtain ⟨j, hj, _, hsame⟩ := hr.jobKept i hi'
      rwa [← hsame (hid' ▸ hi)]
  · rw [hdocuments] at he'
    obtain rfl := Table.eq_of_key he' hd' heid
    exact hagrees

theorem Agreement.upsertDocument {orgId : String} {input : UpsertDocument} {result : UpsertResult}
    (h : s.db.Agree) (hs : Consistent env s)
    (hupsert : upsertDocumentFor env now orgId input s.db = .ok (result, db')) : db'.Agree := by
  obtain ⟨_, _, ⟨existing, hexisting, happly⟩ | hnew⟩ := upsertDocumentFor_ok hupsert
  · rcases applyExisting_ok happly with rfl | ⟨metadata, rfl⟩ | ⟨hinactive, hrequeue⟩
    · exact h
    · dsimp only [setMetadata, Database.Agree]
      intro d' hd'
      obtain ⟨d, hd, rfl⟩ := Table.mem_update.mp hd'
      refine (h d hd).congr ?_ ?_ ?_ fun _ _ => Iff.rfl <;> split <;> rfl
    · exact h.requeue hs hexisting hinactive hrequeue
  · obtain ⟨document, documents, _, hid, hstatus, _, hins, henqueue⟩ := insertNew_ok hnew
    have hmem : ∀ {d}, d ∈ documents ↔ d ∈ s.db.documents ∨ d = document := Table.mem_insert hins
    have hfresh : Idle s.db.jobs document.id := by
      intro j hj hown
      obtain ⟨d, hd, hdown⟩ := hs.owner j hj
      exact absurd (hdown.trans (hown.trans hid)) (hs.documentDrawn d hd).ne_next
    have hinserted : document ∈
        ({ s.db with documents, idsDrawn := s.db.idsDrawn + 1 } : Database).documents :=
      hmem.mpr (.inr rfl)
    obtain ⟨hdocuments, hagrees, hothers⟩ := enqueue_agrees hinserted hstatus hfresh henqueue
    refine h.change document.id (fun d' hd' hne => ?_) hothers fun d' hd' hd'id => ?_
    · rw [hdocuments] at hd'
      rcases hmem.mp hd' with hd' | rfl
      · exact ⟨d', hd', rfl, rfl, rfl⟩
      · exact absurd rfl hne
    · rw [hdocuments] at hd'
      obtain rfl := Table.eq_of_key hd' hinserted hd'id
      exact hagrees

/-- The document a recovery of one kind of job leaves for a document. -/
def recovered (db : Database) (kind : JobKind) (status : DocumentState) (d : Document) : Document :=
  if hasQueuedJob db kind d ∧ d.status.IsClaimed then { d with status } else d

/-- A document is recovered by the kind of its one active job, which is queued. -/
theorem Busy.recovered {db : Database} {d : Document} {j : Job} (h : Busy db.jobs d.id j)
    (hrev : j.revision = d.revision) (hqueued : j.status = .queued) (kind : JobKind)
    (status : DocumentState) :
    recovered db kind status d =
      if j.kind = kind ∧ d.status.IsClaimed then { d with status } else d := by
  have hiff : hasQueuedJob db kind d ↔ j.kind = kind := by
    constructor
    · rintro ⟨i, hi, hown, _, hkind, hi_queued⟩
      obtain rfl := h.only i hi hown (hi_queued ▸ DocumentState.isActive_queued)
      exact hkind
    · exact fun hkind => ⟨j, h.mem, h.owner, hrev, hkind, hqueued⟩
  unfold Storage.recovered
  simp only [hiff]

theorem recovered_rest {db : Database} {kind : JobKind} {status : DocumentState} {d : Document}
    (h : d.status = .done ∨ d.status = .failed) : recovered db kind status d = d := by
  refine if_neg fun hguard => ?_
  rcases h with h | h <;> simp [h, DocumentState.IsClaimed] at hguard

/-- The row that opening leaves for a job row. -/
def requeued (now : Time) (j : Job) : Job :=
  if j.status.IsClaimed then { j with status := .queued, availableAt := now } else j

theorem requeued_status {j : Job} (h : j.status.IsActive) : (requeued now j).status = .queued := by
  unfold requeued
  split
  · rfl
  · exact h.resolve_right ‹_›

theorem requeued_same (now : Time) (j : Job) : SameJob j (requeued now j) := by
  unfold requeued
  split <;> exact ⟨rfl, rfl, rfl, rfl⟩

theorem mem_requeueJobs {db : Database} {j' : Job} :
    j' ∈ (requeueJobs now db).jobs ↔ ∃ j ∈ db.jobs, j' = requeued now j := by
  dsimp only [requeueJobs]
  unfold requeued
  exact Table.mem_update

theorem Busy.requeue {db : Database} {id : String} {j : Job} (h : Busy db.jobs id j) :
    Busy (requeueJobs now db).jobs id (requeued now j) := by
  dsimp only [requeueJobs]
  unfold requeued
  exact h.update_all (fun _ => ⟨rfl, rfl, rfl, rfl⟩) fun r _ hr =>
    ⟨fun _ => hr.isActive, fun _ => DocumentState.isActive_queued⟩

theorem Idle.requeue {db : Database} {id : String} (h : Idle db.jobs id) :
    Idle (requeueJobs now db).jobs id := by
  dsimp only [requeueJobs]
  exact h.update_all (fun _ => ⟨rfl, rfl, rfl, rfl⟩) fun r _ hr =>
    ⟨fun _ => hr.isActive, fun _ => DocumentState.isActive_queued⟩

theorem mem_recoverDocuments {db : Database} {kind : JobKind} {status : DocumentState} {d' : Document} :
    d' ∈ (recoverDocuments db kind status).documents ↔
      ∃ d ∈ db.documents, d' = recovered db kind status d := by
  dsimp only [recoverDocuments]
  exact Table.mem_update

/-- No queued memory job is stale, as every active job is at its document's revision. -/
theorem Agreement.failStaleMemoryJobs (h : s.db.Agree) (hs : Consistent env s) (now : Time)
    (organizations : Table Organization Organization.id) (idsDrawn : Nat) :
    failStaleMemoryJobs (requeueJobs now { s.db with organizations, idsDrawn }) =
      requeueJobs now { s.db with organizations, idsDrawn } := by
  unfold Storage.failStaleMemoryJobs
  rw [Table.update_eq_self]
  rintro r hr ⟨_, hqueued, hrev⟩
  obtain ⟨i, hi, rfl⟩ := mem_requeueJobs.mp hr
  have hi_active : i.status.IsActive := by
    unfold requeued at hqueued
    split at hqueued
    · exact ‹i.status.IsClaimed›.isActive
    · exact hqueued ▸ DocumentState.isActive_queued
  obtain ⟨_, hsame_doc, _, hsame_rev⟩ := requeued_same now i
  obtain ⟨d, hd, hown⟩ := hs.owner i hi
  obtain ⟨_, hcurrent, _⟩ := h.busy hd hi hown.symm hi_active
  exact hrev (documentRevision_eq_some.mpr ⟨d, hd, hown.trans hsame_doc.symm, hcurrent.symm.trans hsame_rev.symm⟩)

/-- The one active job of a document goes back to the queue, and the document to the state it waits in. -/
theorem Agrees.reopened (now : Time) (db : Database) {d : Document} (h : Agrees db.jobs d) :
    Agrees (requeueJobs now db).jobs (recovered (recoverDocuments (requeueJobs now db) .document .queued) .memory .indexing
      (recovered (requeueJobs now db) .document .queued d)) := by
  rcases h with ⟨hidle, hrest⟩ | ⟨j, hbusy, hrev, hshows⟩
  · rw [recovered_rest hrest, recovered_rest hrest]
    exact .idle (Idle.requeue hidle) hrest
  · have hbusy' : Busy (requeueJobs now db).jobs d.id (requeued now j) := Busy.requeue hbusy
    have hqueued : (requeued now j).status = .queued := requeued_status hbusy.active
    have hrev' : (requeued now j).revision = d.revision := (requeued_same now j).2.2.2.trans hrev
    have hkind' : (requeued now j).kind = j.kind := (requeued_same now j).2.2.1
    unfold Shows at hshows
    cases hkind : j.kind with
    | document =>
      rw [hkind] at hshows
      have hd₁ : recovered (requeueJobs now db) .document .queued d = { d with status := .queued } := by
        rw [hbusy'.recovered hrev' hqueued]
        split
        · rfl
        · rename_i hnot
          have hd_queued : d.status = .queued :=
            (hshows ▸ hbusy.active : d.status.IsActive).resolve_right fun hc =>
              hnot ⟨hkind'.trans hkind, hc⟩
          rw [← hd_queued]
      have hbusy₁ : Busy (recoverDocuments (requeueJobs now db) .document .queued).jobs
          ({ d with status := .queued } : Document).id (requeued now j) := hbusy'
      rw [hd₁, hbusy₁.recovered hrev' hqueued, if_neg (by simp [hkind', hkind])]
      exact .busy _ hbusy' hrev' (hqueued ▸ shows_document (hkind'.trans hkind))
    | memory =>
      rw [hkind] at hshows
      have hbusy₁ : Busy (recoverDocuments (requeueJobs now db) .document .queued).jobs d.id (requeued now j) := hbusy'
      have hd₂ : recovered (recoverDocuments (requeueJobs now db) .document .queued) .memory .indexing d = d := by
        rw [hbusy₁.recovered hrev' hqueued]
        split
        · rw [← hshows.1]
        · rfl
      rw [hbusy'.recovered hrev' hqueued, if_neg (by simp [hkind', hkind]), hd₂]
      refine .busy _ hbusy' hrev' ?_
      unfold Shows
      rw [hkind', hkind]
      exact ⟨hshows.1, .inl hqueued⟩

/-- Recovery puts the one active job of a document back in the queue, and the document in the
    state it waits in. -/
theorem Agreement.openStorage {orgId : String} (h : s.db.Agree) (hs : Consistent env s)
    (hopen : openStorage env now s.db = .ok (orgId, db')) : db'.Agree := by
  obtain ⟨organizations, idsDrawn, _, rfl⟩ := openStorage_ok hopen
  rw [Agreement.failStaleMemoryJobs h hs now organizations idsDrawn]
  intro d₂ hd₂
  obtain ⟨d₁, hd₁, rfl⟩ := mem_recoverDocuments.mp hd₂
  obtain ⟨d, hd, rfl⟩ := mem_recoverDocuments.mp hd₁
  exact Agrees.reopened now { s.db with organizations, idsDrawn } (h d hd)

end Storage
