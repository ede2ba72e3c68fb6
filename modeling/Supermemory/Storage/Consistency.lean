-- SUMMARY: What every run keeps, however handles are used: rows and handles agree, and done documents hold chunks of their revision.
import Supermemory.Storage.CallEffects

/-!
# Consistency of the store

The invariant of all runs. It relates the job rows to the documents, the handles to
the job rows, and the documents that are done to the publications. Most statements
are quiet: they change statuses only, and never make a job active again.
-/

namespace Storage

variable {env : Env} {now : Time} {db db' : Database} {s : System}

/-- The identifier was generated by now. -/
def Drawn (env : Env) (db : Database) (id : String) : Prop := ∃ n < db.idsDrawn, env.generateId n = id

theorem Drawn.mono {id : String} (h : Drawn env db id) (hle : db.idsDrawn ≤ db'.idsDrawn) :
    Drawn env db' id :=
  let ⟨n, hn, he⟩ := h
  ⟨n, hn.trans_le hle, he⟩

/-- The next identifier differs from all earlier ones. -/
theorem Drawn.ne_next {id : String} (h : Drawn env db id) : id ≠ env.generateId db.idsDrawn := by
  obtain ⟨n, hn, rfl⟩ := h
  exact fun he => absurd (env.generateId_injective he) (by omega)

/-- The chunks stored for a document were all written by one publication, made with a handle of
    the document's revision and content. -/
def PublishedAt (s : System) (d : Document) : Prop :=
  ∃ p ∈ s.publications, p.job.documentId = d.id ∧ p.job.revision = d.revision ∧
    p.job.content = d.content ∧ chunkRows s.db d.id = p.rows

/-- The invariant of all runs. -/
structure Consistent (env : Env) (s : System) : Prop where
  owner : ∀ j ∈ s.db.jobs, ∃ d ∈ s.db.documents, d.id = j.documentId
  revision : ∀ j ∈ s.db.jobs, ∀ d ∈ s.db.documents, d.id = j.documentId → j.revision ≤ d.revision
  memoryRevision : ∀ j ∈ s.db.jobs, ∀ d ∈ s.db.documents, d.id = j.documentId →
    j.kind = .memory → j.status.IsActive → j.revision = d.revision
  documentDrawn : ∀ d ∈ s.db.documents, Drawn env s.db d.id
  jobDrawn : ∀ j ∈ s.db.jobs, Drawn env s.db j.id
  handleDrawn : ∀ h ∈ s.jobs, Drawn env s.db h.id ∧ Drawn env s.db h.documentId
  handleRow : ∀ h ∈ s.jobs, ∀ j ∈ s.db.jobs, j.id = h.id →
    j.kind = .document ∧ j.documentId = h.documentId ∧ j.revision = h.revision
  handleKept : ∀ h ∈ s.jobs, ∀ d ∈ s.db.documents, d.id = h.documentId → ∃ j ∈ s.db.jobs, j.id = h.id
  handleContent : ∀ h ∈ s.jobs, ∀ d ∈ s.db.documents, d.id = h.documentId →
    h.revision ≤ d.revision ∧ (d.revision = h.revision → d.content = h.content)
  memoryHandleDrawn : ∀ m ∈ s.memoryJobs, Drawn env s.db m.id
  memoryHandleRow : ∀ m ∈ s.memoryJobs, ∀ j ∈ s.db.jobs, j.id = m.id →
    j.kind = .memory ∧ j.documentId = m.documentId ∧ j.revision = m.revision
  published : ∀ p ∈ s.publications, p.job ∈ s.jobs ∧ p.rows.map (·.content) = p.chunks ∧
    p.rows.map (·.ordinal) = List.range p.chunks.length
  memoryPublished : ∀ j ∈ s.db.jobs, ∀ d ∈ s.db.documents, d.id = j.documentId →
    j.kind = .memory → j.revision = d.revision → PublishedAt s d
  donePublished : ∀ d ∈ s.db.documents, d.status = .done → PublishedAt s d

/-! ## Quiet changes -/

/-- Only statuses and bookkeeping change. No job becomes active, and a document becomes done
    only where `finished` allows it. -/
structure Quiet (finished : String → Nat → Prop) (db db' : Database) : Prop where
  document : ∀ d' ∈ db'.documents, ∃ d ∈ db.documents, d'.id = d.id ∧ d'.revision = d.revision ∧
    d'.content = d.content ∧ (d'.status = .done → d.status = .done ∨ finished d.id d.revision)
  documentKept : ∀ d ∈ db.documents, ∃ d' ∈ db'.documents, d'.id = d.id
  job : ∀ j' ∈ db'.jobs, ∃ j ∈ db.jobs, SameJob j j' ∧ (j'.status.IsActive → j.status.IsActive)
  jobKept : ∀ j ∈ db.jobs, ∃ j' ∈ db'.jobs, j'.id = j.id
  chunks : db'.chunks = db.chunks
  idsDrawn : db.idsDrawn ≤ db'.idsDrawn

/-- No document becomes done. -/
abbrev never : String → Nat → Prop := fun _ _ => False

namespace Quiet

variable {finished : String → Nat → Prop} {db₁ db₂ db₃ : Database}

theorem memoriesOnly (h : MemoriesOnly db db') : Quiet finished db db' where
  document d hd := ⟨d, h.documents ▸ hd, rfl, rfl, rfl, .inl⟩
  documentKept d hd := ⟨d, h.documents ▸ hd, rfl⟩
  job j hj := ⟨j, h.jobs ▸ hj, ⟨rfl, rfl, rfl, rfl⟩, id⟩
  jobKept j hj := ⟨j, h.jobs ▸ hj, rfl⟩
  chunks := h.chunks
  idsDrawn := h.idsDrawn

theorem refl (db : Database) : Quiet finished db db := memoriesOnly (.refl db)

theorem trans (h : Quiet finished db₁ db₂) (h' : Quiet finished db₂ db₃) : Quiet finished db₁ db₃ where
  document d₃ hd₃ := by
    obtain ⟨d₂, hd₂, hid', hrev', hcontent', hdone'⟩ := h'.document d₃ hd₃
    obtain ⟨d₁, hd₁, hid, hrev, hcontent, hdone⟩ := h.document d₂ hd₂
    refine ⟨d₁, hd₁, hid'.trans hid, hrev'.trans hrev, hcontent'.trans hcontent, fun h₃ => ?_⟩
    rcases hdone' h₃ with h₂ | h₂
    · exact hdone h₂
    · exact .inr (hid ▸ hrev ▸ h₂)
  documentKept d₁ hd₁ := by
    obtain ⟨d₂, hd₂, hid⟩ := h.documentKept d₁ hd₁
    obtain ⟨d₃, hd₃, hid'⟩ := h'.documentKept d₂ hd₂
    exact ⟨d₃, hd₃, hid'.trans hid⟩
  job j₃ hj₃ := by
    obtain ⟨j₂, hj₂, ⟨hid', hdoc', hkind', hrev'⟩, hactive'⟩ := h'.job j₃ hj₃
    obtain ⟨j₁, hj₁, ⟨hid, hdoc, hkind, hrev⟩, hactive⟩ := h.job j₂ hj₂
    exact ⟨j₁, hj₁, ⟨hid'.trans hid, hdoc'.trans hdoc, hkind'.trans hkind, hrev'.trans hrev⟩,
      hactive ∘ hactive'⟩
  jobKept j₁ hj₁ := by
    obtain ⟨j₂, hj₂, hid⟩ := h.jobKept j₁ hj₁
    obtain ⟨j₃, hj₃, hid'⟩ := h'.jobKept j₂ hj₂
    exact ⟨j₃, hj₃, hid'.trans hid⟩
  chunks := h'.chunks.trans h.chunks
  idsDrawn := h.idsDrawn.trans h'.idsDrawn

theorem updateJobs {p : Job → Prop} [DecidablePred p] {f : Job → Job} {hf : ∀ j, j.id = (f j).id}
    (hsame : ∀ j, SameJob j (f j))
    (hactive : ∀ j ∈ db.jobs, p j → (f j).status.IsActive → j.status.IsActive) :
    Quiet finished db { db with jobs := db.jobs.update p f hf } where
  document d hd := ⟨d, hd, rfl, rfl, rfl, .inl⟩
  documentKept d hd := ⟨d, hd, rfl⟩
  job j' hj' := by
    have hmem : j' ∈ db.jobs.update p f hf := hj'
    obtain ⟨j, hj, rfl⟩ := Table.mem_update.mp hmem
    refine ⟨j, hj, ?_⟩
    split
    · rename_i hp
      exact ⟨hsame j, hactive j hj hp⟩
    · exact ⟨⟨rfl, rfl, rfl, rfl⟩, id⟩
  jobKept j hj := by
    have hmem : _ ∈ db.jobs.update p f hf := Table.update_mem hj
    refine ⟨_, hmem, ?_⟩
    split
    · exact (hf j).symm
    · rfl
  chunks := rfl
  idsDrawn := le_refl _

theorem updateDocuments {p : Document → Prop} [DecidablePred p] {f : Document → Document}
    {hf : ∀ d, d.id = (f d).id} (hrevision : ∀ d, (f d).revision = d.revision)
    (hcontent : ∀ d, (f d).content = d.content)
    (hdone : ∀ d ∈ db.documents, p d → (f d).status = .done →
      d.status = .done ∨ finished d.id d.revision) :
    Quiet finished db { db with documents := db.documents.update p f hf } where
  document d' hd' := by
    have hmem : d' ∈ db.documents.update p f hf := hd'
    obtain ⟨d, hd, rfl⟩ := Table.mem_update.mp hmem
    refine ⟨d, hd, ?_⟩
    split
    · rename_i hp
      exact ⟨(hf d).symm, hrevision d, hcontent d, hdone d hd hp⟩
    · exact ⟨rfl, rfl, rfl, .inl⟩
  documentKept d hd := by
    have hmem : _ ∈ db.documents.update p f hf := Table.update_mem hd
    refine ⟨_, hmem, ?_⟩
    split
    · exact (hf d).symm
    · rfl
  job j hj := ⟨j, hj, ⟨rfl, rfl, rfl, rfl⟩, id⟩
  jobKept j hj := ⟨j, hj, rfl⟩
  chunks := rfl
  idsDrawn := le_refl _

theorem setDocumentStatus {id : String} {revision : Nat} {status : DocumentState}
    (h : status = .done → finished id revision) :
    Quiet finished db (db.setDocumentStatus id revision status) :=
  updateDocuments (fun _ => rfl) (fun _ => rfl) fun d _ hp hdone => .inr (by
    obtain ⟨rfl, rfl⟩ := hp
    exact h hdone)

/-! The statements of the operations. -/

theorem startJob {id : String} {revision : Nat} : Quiet finished db (startJob db id revision) :=
  updateJobs (fun _ => ⟨rfl, rfl, rfl, rfl⟩) fun _ _ hp _ => .inl hp.2.2

theorem finishJob {id : String} {revision : Nat} : Quiet finished db (finishJob db id revision) :=
  updateJobs (fun _ => ⟨rfl, rfl, rfl, rfl⟩) fun _ _ hp _ => .inr hp.2.2

theorem advanceJob {id : String} {revision : Nat} {expected stage : DocumentState}
    (h : expected.IsClaimed) : Quiet finished db (advanceJob db id revision expected stage) :=
  updateJobs (fun _ => ⟨rfl, rfl, rfl, rfl⟩) fun _ _ hp _ => .inr (hp.2.2 ▸ h)

theorem failJob {job : ClaimedJob} {error : String} : Quiet finished db (failJob job error db) := by
  have hjobs : Quiet finished db { db with
      jobs := db.jobs.update (fun j => j.id = job.id ∧ j.revision = job.revision)
        (fun j => { j with status := .failed, lastError := some error }) } :=
    updateJobs (fun _ => ⟨rfl, rfl, rfl, rfl⟩) fun _ _ _ h => absurd h DocumentState.not_isActive_failed
  exact hjobs.trans (setDocumentStatus nofun)

theorem markMemoryJobStale {id : String} {revision : Nat} :
    Quiet finished db (markMemoryJobStale db id revision) :=
  updateJobs (fun _ => ⟨rfl, rfl, rfl, rfl⟩) fun _ _ _ h => absurd h DocumentState.not_isActive_failed

theorem finishMemoryJob {id : String} {revision : Nat} :
    Quiet finished db (finishMemoryJob db id revision) :=
  updateJobs (fun _ => ⟨rfl, rfl, rfl, rfl⟩) fun _ _ _ h => absurd h DocumentState.not_isActive_done

theorem finishedReconciliation {jobId documentId : String} {revision : Nat} :
    Quiet finished db (finishedReconciliation db jobId documentId revision) :=
  updateJobs (fun _ => ⟨rfl, rfl, rfl, rfl⟩) fun _ _ _ h => absurd h DocumentState.not_isActive_done

theorem retriedJob {m : ClaimedMemoryJob} {status : DocumentState} {errorKind error : String}
    {availableAt : Time} : Quiet finished db (retriedJob db m status errorKind error availableAt) :=
  updateJobs (fun _ => ⟨rfl, rfl, rfl, rfl⟩) fun _ _ hp _ => .inr (.inl hp.2.2)

theorem cacheMemoryExtraction {m : ClaimedMemoryJob} {result : String} :
    Quiet finished db (cacheMemoryExtraction m result db).2 := by
  rcases cacheMemoryExtraction_cases m result db with ⟨_, heq⟩ | ⟨_, heq⟩
  · rw [heq]
    exact updateJobs (fun _ => ⟨rfl, rfl, rfl, rfl⟩) fun _ _ _ h => h
  · rw [heq]
    exact markMemoryJobStale

theorem recoverDocuments {kind : JobKind} {status : DocumentState} (h : status ≠ .done) :
    Quiet finished db (recoverDocuments db kind status) :=
  updateDocuments (fun _ => rfl) (fun _ => rfl) fun _ _ _ hdone => absurd hdone h

theorem openStorage {orgId : String} (h : openStorage env now db = .ok (orgId, db')) :
    Quiet finished db db' := by
  obtain ⟨organizations, idsDrawn, hdrawn, rfl⟩ := openStorage_ok h
  have hseed : Quiet finished db { db with organizations, idsDrawn } :=
    memoriesOnly ⟨rfl, rfl, rfl, rfl, hdrawn⟩
  have hrequeue : Quiet finished { db with organizations, idsDrawn }
      (requeueJobs now { db with organizations, idsDrawn }) :=
    updateJobs (fun _ => ⟨rfl, rfl, rfl, rfl⟩) fun _ _ hp _ => .inr hp
  have hstale : ∀ db, Quiet finished db (failStaleMemoryJobs db) := fun db =>
    updateJobs (fun _ => ⟨rfl, rfl, rfl, rfl⟩) fun _ _ _ h =>
      absurd h DocumentState.not_isActive_failed
  exact (((hseed.trans hrequeue).trans (hstale _)).trans (recoverDocuments (by decide))).trans
    (recoverDocuments (by decide))

end Quiet

/-! ## What the invariant survives -/

namespace Consistent

/-- A quiet change, in which only documents whose chunks are published become done. -/
theorem quiet {finished : String → Nat → Prop} (h : Consistent env s) (hq : Quiet finished s.db db')
    (hfinished : ∀ d ∈ s.db.documents, finished d.id d.revision → PublishedAt s d) :
    Consistent env { s with db := db' } := by
  have hpublished : ∀ d d' : Document, d'.id = d.id → d'.revision = d.revision →
      d'.content = d.content → PublishedAt s d → PublishedAt { s with db := db' } d' := by
    rintro d d' hid hrev hcontent ⟨p, hp, hpid, hprev, hpcontent, hrows⟩
    refine ⟨p, hp, hpid.trans hid.symm, hprev.trans hrev.symm, hpcontent.trans hcontent.symm, ?_⟩
    rw [hid, ← hrows, chunkRows, chunkRows, hq.chunks]
  constructor
  case owner =>
    intro j' hj'
    obtain ⟨j, hj, ⟨_, hdoc, _, _⟩, _⟩ := hq.job j' hj'
    obtain ⟨d, hd, hid⟩ := h.owner j hj
    obtain ⟨d', hd', hid'⟩ := hq.documentKept d hd
    exact ⟨d', hd', hid'.trans (hid.trans hdoc.symm)⟩
  case revision =>
    intro j' hj' d' hd' hown
    obtain ⟨j, hj, ⟨_, hdoc, _, hjrev⟩, _⟩ := hq.job j' hj'
    obtain ⟨d, hd, hid, hrev, _⟩ := hq.document d' hd'
    rw [hjrev, hrev]
    exact h.revision j hj d hd (hid ▸ hdoc ▸ hown)
  case memoryRevision =>
    intro j' hj' d' hd' hown hkind hactive
    obtain ⟨j, hj, ⟨_, hdoc, hjkind, hjrev⟩, hj_active⟩ := hq.job j' hj'
    obtain ⟨d, hd, hid, hrev, _⟩ := hq.document d' hd'
    rw [hjrev, hrev]
    exact h.memoryRevision j hj d hd (hid ▸ hdoc ▸ hown) (hjkind ▸ hkind) (hj_active hactive)
  case documentDrawn =>
    intro d' hd'
    obtain ⟨d, hd, hid, _⟩ := hq.document d' hd'
    exact hid ▸ (h.documentDrawn d hd).mono hq.idsDrawn
  case jobDrawn =>
    intro j' hj'
    obtain ⟨j, hj, ⟨hid, _⟩, _⟩ := hq.job j' hj'
    exact hid ▸ (h.jobDrawn j hj).mono hq.idsDrawn
  case handleDrawn =>
    exact fun k hk => ⟨(h.handleDrawn k hk).1.mono hq.idsDrawn, (h.handleDrawn k hk).2.mono hq.idsDrawn⟩
  case handleRow =>
    intro k hk j' hj' hid'
    obtain ⟨j, hj, ⟨hid, hdoc, hkind, hrev⟩, _⟩ := hq.job j' hj'
    rw [hkind, hdoc, hrev]
    exact h.handleRow k hk j hj (hid ▸ hid')
  case handleKept =>
    intro k hk d' hd' hid'
    obtain ⟨d, hd, hid, _⟩ := hq.document d' hd'
    obtain ⟨j, hj, hjid⟩ := h.handleKept k hk d hd (hid ▸ hid')
    obtain ⟨j', hj', hjid'⟩ := hq.jobKept j hj
    exact ⟨j', hj', hjid'.trans hjid⟩
  case handleContent =>
    intro k hk d' hd' hid'
    obtain ⟨d, hd, hid, hrev, hcontent, _⟩ := hq.document d' hd'
    rw [hrev, hcontent]
    exact h.handleContent k hk d hd (hid ▸ hid')
  case memoryHandleDrawn =>
    exact fun m hm => (h.memoryHandleDrawn m hm).mono hq.idsDrawn
  case memoryHandleRow =>
    intro m hm j' hj' hid'
    obtain ⟨j, hj, ⟨hid, hdoc, hkind, hrev⟩, _⟩ := hq.job j' hj'
    rw [hkind, hdoc, hrev]
    exact h.memoryHandleRow m hm j hj (hid ▸ hid')
  case published => exact h.published
  case memoryPublished =>
    intro j' hj' d' hd' hown hkind hcurrent
    obtain ⟨j, hj, ⟨_, hdoc, hjkind, hjrev⟩, _⟩ := hq.job j' hj'
    obtain ⟨d, hd, hid, hrev, hcontent, _⟩ := hq.document d' hd'
    exact hpublished d d' hid hrev hcontent (h.memoryPublished j hj d hd (hid ▸ hdoc ▸ hown)
      (hjkind ▸ hkind) (hjrev ▸ hrev ▸ hcurrent))
  case donePublished =>
    intro d' hd' hdone'
    obtain ⟨d, hd, hid, hrev, hcontent, hdone⟩ := hq.document d' hd'
    refine hpublished d d' hid hrev hcontent ?_
    rcases hdone hdone' with hdone | hfin
    · exact h.donePublished d hd hdone
    · exact hfinished d hd hfin

theorem quiet_never (h : Consistent env s) (hq : Quiet never s.db db') :
    Consistent env { s with db := db' } :=
  h.quiet hq fun _ _ hf => hf.elim

/-- A queued job for a document at its revision; a memory job needs published chunks. -/
theorem insertJob {documentId : String} {kind : JobKind} {revision : Nat} (h : Consistent env s)
    (hinsert : s.db.insertJob env now documentId kind revision = .ok db')
    (hd : ∃ d ∈ s.db.documents, d.id = documentId ∧ d.revision = revision)
    (hpublished : kind = .memory → ∀ d ∈ s.db.documents, d.id = documentId → PublishedAt s d) :
    Consistent env { s with db := db' } := by
  obtain ⟨_, jobs, hins, rfl⟩ := insertJob_ok hinsert
  obtain ⟨d₀, hd₀, hid₀, hrev₀⟩ := hd
  have hle : s.db.idsDrawn ≤ s.db.idsDrawn + 1 := Nat.le_succ _
  have hmem : ∀ {j}, j ∈ jobs ↔ j ∈ s.db.jobs ∨ j = queuedJob env now s.db documentId kind revision :=
    Table.mem_insert hins
  have hunique : ∀ d ∈ s.db.documents, d.id = documentId → d.revision = revision :=
    fun d hd hid => Table.eq_of_key hd hd₀ (hid.trans hid₀.symm) ▸ hrev₀
  constructor
  case owner =>
    intro j hj
    rcases hmem.mp hj with hj | rfl
    · exact h.owner j hj
    · exact ⟨d₀, hd₀, hid₀⟩
  case revision =>
    intro j hj d hd hown
    rcases hmem.mp hj with hj | rfl
    · exact h.revision j hj d hd hown
    · exact (hunique d hd hown).ge
  case memoryRevision =>
    intro j hj d hd hown hkind hactive
    rcases hmem.mp hj with hj | rfl
    · exact h.memoryRevision j hj d hd hown hkind hactive
    · exact (hunique d hd hown).symm
  case documentDrawn => exact fun d hd => (h.documentDrawn d hd).mono hle
  case jobDrawn =>
    intro j hj
    rcases hmem.mp hj with hj | rfl
    · exact (h.jobDrawn j hj).mono hle
    · exact ⟨s.db.idsDrawn, Nat.lt_succ_self _, rfl⟩
  case handleDrawn =>
    exact fun k hk => ⟨(h.handleDrawn k hk).1.mono hle, (h.handleDrawn k hk).2.mono hle⟩
  case handleRow =>
    intro k hk j hj hid
    rcases hmem.mp hj with hj | rfl
    · exact h.handleRow k hk j hj hid
    · exact absurd hid.symm (h.handleDrawn k hk).1.ne_next
  case handleKept =>
    intro k hk d hd hid
    obtain ⟨j, hj, hjid⟩ := h.handleKept k hk d hd hid
    exact ⟨j, hmem.mpr (.inl hj), hjid⟩
  case handleContent => exact h.handleContent
  case memoryHandleDrawn => exact fun m hm => (h.memoryHandleDrawn m hm).mono hle
  case memoryHandleRow =>
    intro m hm j hj hid
    rcases hmem.mp hj with hj | rfl
    · exact h.memoryHandleRow m hm j hj hid
    · exact absurd hid.symm (h.memoryHandleDrawn m hm).ne_next
  case published => exact h.published
  case memoryPublished =>
    intro j hj d hd hown hkind hcurrent
    rcases hmem.mp hj with hj | rfl
    · exact h.memoryPublished j hj d hd hown hkind hcurrent
    · exact hpublished hkind d hd hown
  case donePublished => exact h.donePublished

/-- A document goes with all its jobs and chunks. -/
theorem deleteDocument (h : Consistent env s) (id : String) :
    Consistent env { s with db := s.db.deleteDocument id } := by
  have hdoc : ∀ {d}, d ∈ (s.db.deleteDocument id).documents ↔ d ∈ s.db.documents ∧ d.id ≠ id :=
    Table.mem_delete
  have hjob : ∀ {j}, j ∈ (s.db.deleteDocument id).jobs ↔ j ∈ s.db.jobs ∧ j.documentId ≠ id :=
    Table.mem_delete
  have hpublished : ∀ d : Document, d.id ≠ id → PublishedAt s d →
      PublishedAt { s with db := s.db.deleteDocument id } d := by
    rintro d hne ⟨p, hp, hpid, hprev, hpcontent, hrows⟩
    refine ⟨p, hp, hpid, hprev, hpcontent, ?_⟩
    rw [← hrows]
    simp only [chunkRows, Database.deleteDocument, Table.delete, List.filter_filter]
    refine List.filter_congr fun c _ => ?_
    by_cases hc : c.documentId = d.id
    · simp [hc, hne]
    · simp [hc]
  constructor
  case owner =>
    intro j hj
    obtain ⟨hj, hne⟩ := hjob.mp hj
    obtain ⟨d, hd, hid⟩ := h.owner j hj
    exact ⟨d, hdoc.mpr ⟨hd, hid ▸ hne⟩, hid⟩
  case revision => exact fun j hj d hd => h.revision j (hjob.mp hj).1 d (hdoc.mp hd).1
  case memoryRevision => exact fun j hj d hd => h.memoryRevision j (hjob.mp hj).1 d (hdoc.mp hd).1
  case documentDrawn => exact fun d hd => h.documentDrawn d (hdoc.mp hd).1
  case jobDrawn => exact fun j hj => h.jobDrawn j (hjob.mp hj).1
  case handleDrawn => exact h.handleDrawn
  case handleRow => exact fun k hk j hj => h.handleRow k hk j (hjob.mp hj).1
  case handleKept =>
    intro k hk d hd hid
    obtain ⟨hd, hne⟩ := hdoc.mp hd
    obtain ⟨j, hj, hjid⟩ := h.handleKept k hk d hd hid
    refine ⟨j, hjob.mpr ⟨hj, ?_⟩, hjid⟩
    rw [(h.handleRow k hk j hj hjid).2.1, ← hid]
    exact hne
  case handleContent => exact fun k hk d hd => h.handleContent k hk d (hdoc.mp hd).1
  case memoryHandleDrawn => exact h.memoryHandleDrawn
  case memoryHandleRow => exact fun m hm j hj => h.memoryHandleRow m hm j (hjob.mp hj).1
  case published => exact h.published
  case memoryPublished =>
    intro j hj d hd hown hkind hcurrent
    obtain ⟨hd, hne⟩ := hdoc.mp hd
    exact hpublished d hne (h.memoryPublished j (hjob.mp hj).1 d hd hown hkind hcurrent)
  case donePublished =>
    intro d hd hdone
    obtain ⟨hd, hne⟩ := hdoc.mp hd
    exact hpublished d hne (h.donePublished d hd hdone)

/-- A new document, which no job and no handle is about yet. -/
theorem insertDocument {document : Document} {documents : Table Document Document.id}
    (h : Consistent env s) (hid : document.id = env.generateId s.db.idsDrawn)
    (hstatus : document.status ≠ .done) (hins : s.db.documents.insert document = some documents) :
    Consistent env { s with db := { s.db with documents, idsDrawn := s.db.idsDrawn + 1 } } := by
  have hle : s.db.idsDrawn ≤ s.db.idsDrawn + 1 := Nat.le_succ _
  have hmem : ∀ {d}, d ∈ documents ↔ d ∈ s.db.documents ∨ d = document := Table.mem_insert hins
  have hjob : ∀ j ∈ s.db.jobs, document.id ≠ j.documentId := by
    intro j hj
    obtain ⟨d, hd, hown⟩ := h.owner j hj
    rw [hid, ← hown]
    exact (h.documentDrawn d hd).ne_next.symm
  have hhandle : ∀ k ∈ s.jobs, document.id ≠ k.documentId :=
    fun k hk => hid ▸ (h.handleDrawn k hk).2.ne_next.symm
  constructor
  case owner =>
    intro j hj
    obtain ⟨d, hd, hown⟩ := h.owner j hj
    exact ⟨d, hmem.mpr (.inl hd), hown⟩
  case revision =>
    intro j hj d hd hown
    rcases hmem.mp hd with hd | rfl
    · exact h.revision j hj d hd hown
    · exact absurd hown (hjob j hj)
  case memoryRevision =>
    intro j hj d hd hown
    rcases hmem.mp hd with hd | rfl
    · exact h.memoryRevision j hj d hd hown
    · exact absurd hown (hjob j hj)
  case documentDrawn =>
    intro d hd
    rcases hmem.mp hd with hd | rfl
    · exact (h.documentDrawn d hd).mono hle
    · exact ⟨s.db.idsDrawn, Nat.lt_succ_self _, hid.symm⟩
  case jobDrawn => exact fun j hj => (h.jobDrawn j hj).mono hle
  case handleDrawn =>
    exact fun k hk => ⟨(h.handleDrawn k hk).1.mono hle, (h.handleDrawn k hk).2.mono hle⟩
  case handleRow => exact h.handleRow
  case handleKept =>
    intro k hk d hd hown
    rcases hmem.mp hd with hd | rfl
    · exact h.handleKept k hk d hd hown
    · exact absurd hown (hhandle k hk)
  case handleContent =>
    intro k hk d hd hown
    rcases hmem.mp hd with hd | rfl
    · exact h.handleContent k hk d hd hown
    · exact absurd hown (hhandle k hk)
  case memoryHandleDrawn => exact fun m hm => (h.memoryHandleDrawn m hm).mono hle
  case memoryHandleRow => exact h.memoryHandleRow
  case published => exact h.published
  case memoryPublished =>
    intro j hj d hd hown hkind hcurrent
    rcases hmem.mp hd with hd | rfl
    · exact h.memoryPublished j hj d hd hown hkind hcurrent
    · exact absurd hown (hjob j hj)
  case donePublished =>
    intro d hd hdone
    rcases hmem.mp hd with hd | rfl
    · exact h.donePublished d hd hdone
    · exact absurd hdone hstatus

/-- A document under its next revision, which no job and no handle is at yet. -/
theorem updateFull {id hash : String} {input : UpsertDocument} {metadata : Object}
    {status : DocumentState} (h : Consistent env s) (hstatus : status ≠ .done)
    (hupdate : updateFull s.db id input hash metadata status = .ok db') :
    Consistent env { s with db := db' } := by
  have hr := updateFull_rewrites hupdate
  have hdrawn : s.db.idsDrawn ≤ db'.idsDrawn := hr.idsDrawn.ge
  have hpublished : ∀ d, PublishedAt s d → PublishedAt { s with db := db' } d := by
    rintro d ⟨p, hp, hpid, hprev, hpcontent, hrows⟩
    exact ⟨p, hp, hpid, hprev, hpcontent, by rw [← hrows, chunkRows, chunkRows, hr.chunks]⟩
  constructor
  case owner =>
    intro j' hj'
    obtain ⟨j, hj, ⟨_, hown', _, _⟩, _⟩ := hr.job j' hj'
    obtain ⟨d, hd, hown⟩ := h.owner j hj
    obtain ⟨d', hd', hid⟩ := hr.documentKept d hd
    exact ⟨d', hd', hid.trans (hown.trans hown'.symm)⟩
  case revision =>
    intro j' hj' d' hd' hown
    obtain ⟨j, hj, ⟨_, hdoc', _, hrev⟩, _⟩ := hr.job j' hj'
    obtain ⟨d, hd, hid, hcase⟩ := hr.document d' hd'
    have hle := h.revision j hj d hd (hid ▸ hdoc' ▸ hown)
    rw [hrev]
    rcases hcase with ⟨rfl, _⟩ | ⟨_, hnext, _⟩
    · exact hle
    · exact hnext ▸ hle.trans (Nat.le_succ _)
  case memoryRevision =>
    intro j' hj' d' hd' hown hkind hactive
    obtain ⟨d, hd, hid, hcase⟩ := hr.document d' hd'
    rcases hcase with ⟨rfl, hne⟩ | ⟨hid', _, _⟩
    · obtain ⟨j, hj, ⟨_, hdoc', _, _⟩, rfl | ⟨hj_doc, _⟩⟩ := hr.job j' hj'
      · exact h.memoryRevision j' hj d' hd hown hkind hactive
      · exact absurd (hown.trans (hdoc'.trans hj_doc)) hne
    · exact hr.stale j' hj' hkind hactive d' hd' hown (hid.trans hid')
  case documentDrawn =>
    intro d' hd'
    obtain ⟨d, hd, hid, _⟩ := hr.document d' hd'
    exact hid ▸ (h.documentDrawn d hd).mono hdrawn
  case jobDrawn =>
    intro j' hj'
    obtain ⟨j, hj, ⟨hid, _⟩, _⟩ := hr.job j' hj'
    exact hid ▸ (h.jobDrawn j hj).mono hdrawn
  case handleDrawn =>
    exact fun k hk => ⟨(h.handleDrawn k hk).1.mono hdrawn, (h.handleDrawn k hk).2.mono hdrawn⟩
  case handleRow =>
    intro k hk j' hj' hid'
    obtain ⟨j, hj, ⟨hid, hdoc', hkind, hrev⟩, _⟩ := hr.job j' hj'
    rw [hkind, hdoc', hrev]
    exact h.handleRow k hk j hj (hid ▸ hid')
  case handleKept =>
    intro k hk d' hd' hid'
    obtain ⟨d, hd, hid, _⟩ := hr.document d' hd'
    obtain ⟨j, hj, hjid⟩ := h.handleKept k hk d hd (hid ▸ hid')
    obtain ⟨j', hj', ⟨hjid', _⟩, _⟩ := hr.jobKept j hj
    exact ⟨j', hj', hjid'.trans hjid⟩
  case handleContent =>
    intro k hk d' hd' hid'
    obtain ⟨d, hd, hid, hcase⟩ := hr.document d' hd'
    obtain ⟨hle, hsame⟩ := h.handleContent k hk d hd (hid ▸ hid')
    rcases hcase with ⟨rfl, _⟩ | ⟨_, hnext, _⟩
    · exact ⟨hle, hsame⟩
    · rw [hnext]
      exact ⟨hle.trans (Nat.le_succ _), fun he => absurd hle (by omega)⟩
  case memoryHandleDrawn => exact fun m hm => (h.memoryHandleDrawn m hm).mono hdrawn
  case memoryHandleRow =>
    intro m hm j' hj' hid'
    obtain ⟨j, hj, ⟨hid, hdoc', hkind, hrev⟩, _⟩ := hr.job j' hj'
    rw [hkind, hdoc', hrev]
    exact h.memoryHandleRow m hm j hj (hid ▸ hid')
  case published => exact h.published
  case memoryPublished =>
    intro j' hj' d' hd' hown hkind hcurrent
    obtain ⟨j, hj, ⟨_, hdoc', hkind', hrev⟩, _⟩ := hr.job j' hj'
    obtain ⟨d, hd, hid, hcase⟩ := hr.document d' hd'
    rcases hcase with ⟨rfl, _⟩ | ⟨_, hnext, _⟩
    · exact hpublished d' (h.memoryPublished j hj d' hd (hdoc' ▸ hown) (hkind' ▸ hkind)
        (hrev ▸ hcurrent))
    · have hle := h.revision j hj d hd (hid ▸ hdoc' ▸ hown)
      rw [hrev, hnext] at hcurrent
      exact absurd hle (by omega)
  case donePublished =>
    intro d' hd' hdone
    obtain ⟨d, hd, hid, hcase⟩ := hr.document d' hd'
    rcases hcase with ⟨rfl, _⟩ | ⟨_, _, hd'status⟩
    · exact hpublished d' (h.donePublished d' hd hdone)
    · exact absurd (hd'status.symm.trans hdone) hstatus

/-- A handle on a document job at the document's revision. -/
theorem addHandle {k : ClaimedJob} {j : Job} {d : Document} (h : Consistent env s)
    (hj : j ∈ s.db.jobs) (hd : d ∈ s.db.documents) (hown : d.id = j.documentId)
    (hkind : j.kind = .document) (hrev : j.revision = d.revision)
    (hk : k = ⟨j.id, d.id, d.content, j.revision⟩) :
    Consistent env { s with jobs := k :: s.jobs } := by
  subst hk
  refine { h with
    handleDrawn := ?_, handleRow := ?_, handleKept := ?_, handleContent := ?_
    published := fun p hp => (h.published p hp).imp_left (List.mem_cons_of_mem _) }
  · rw [List.forall_mem_cons]
    exact ⟨⟨h.jobDrawn j hj, h.documentDrawn d hd⟩, h.handleDrawn⟩
  · rw [List.forall_mem_cons]
    refine ⟨fun i hi hid => ?_, h.handleRow⟩
    obtain rfl := Table.eq_of_key hi hj hid
    exact ⟨hkind, hown.symm, rfl⟩
  · rw [List.forall_mem_cons]
    exact ⟨fun _ _ _ => ⟨j, hj, rfl⟩, h.handleKept⟩
  · rw [List.forall_mem_cons]
    refine ⟨fun e he hid => ?_, h.handleContent⟩
    obtain rfl := Table.eq_of_key he hd hid
    exact ⟨hrev.le, fun _ => rfl⟩

/-- A handle on a memory job. -/
theorem addMemoryHandle {m : ClaimedMemoryJob} {j : Job} (h : Consistent env s) (hj : j ∈ s.db.jobs)
    (hkind : j.kind = .memory) (hid : m.id = j.id) (hdoc : m.documentId = j.documentId)
    (hrev : m.revision = j.revision) : Consistent env { s with memoryJobs := m :: s.memoryJobs } := by
  refine { h with memoryHandleDrawn := ?_, memoryHandleRow := ?_ }
  · rw [List.forall_mem_cons]
    exact ⟨hid ▸ h.jobDrawn j hj, h.memoryHandleDrawn⟩
  · rw [List.forall_mem_cons]
    refine ⟨fun i hi hid' => ?_, h.memoryHandleRow⟩
    obtain rfl := Table.eq_of_key hi hj (hid'.trans hid)
    exact ⟨hkind, hdoc.symm, hrev.symm⟩

/-- New chunks for a document at the handle's revision, recorded as a publication. -/
theorem replaceChunks {job : ClaimedJob} {chunks : List String} {dbc : Database}
    (h : Consistent env s) (hjob : job ∈ s.jobs)
    (hcurrent : s.db.documentRevision job.documentId = some job.revision)
    (hsame : SameButChunks job.documentId s.db dbc)
    (hcontent : (chunkRows dbc job.documentId).map (·.content) = chunks)
    (hordinal : (chunkRows dbc job.documentId).map (·.ordinal) = List.range chunks.length) :
    Consistent env { s with
      db := dbc
      publications := ⟨job, chunks, chunkRows dbc job.documentId⟩ :: s.publications } ∧
    ∀ d ∈ dbc.documents, d.id = job.documentId → PublishedAt { s with
      db := dbc
      publications := ⟨job, chunks, chunkRows dbc job.documentId⟩ :: s.publications } d := by
  have hnew : ∀ d ∈ s.db.documents, d.id = job.documentId → PublishedAt { s with
      db := dbc
      publications := ⟨job, chunks, chunkRows dbc job.documentId⟩ :: s.publications } d := by
    intro d hd hid
    obtain ⟨e, he, heid, herev⟩ := documentRevision_eq_some.mp hcurrent
    obtain rfl := Table.eq_of_key he hd (heid.trans hid.symm)
    have hcontent := (h.handleContent job hjob e he heid).2 herev
    exact ⟨_, List.mem_cons_self, hid.symm, herev.symm, hcontent.symm, by rw [hid]⟩
  have hpublished : ∀ d ∈ s.db.documents, PublishedAt s d → PublishedAt { s with
      db := dbc
      publications := ⟨job, chunks, chunkRows dbc job.documentId⟩ :: s.publications } d := by
    intro d hd hp
    by_cases hid : d.id = job.documentId
    · exact hnew d hd hid
    · obtain ⟨p, hp, hpid, hprev, hpcontent, hrows⟩ := hp
      exact ⟨p, List.mem_cons_of_mem _ hp, hpid, hprev, hpcontent,
        (hsame.others d.id hid).trans hrows⟩
  have hdoc : dbc.documents = s.db.documents := hsame.documents
  have hjobs : dbc.jobs = s.db.jobs := hsame.jobs
  refine ⟨?_, fun d hd => hnew d (hdoc ▸ hd)⟩
  exact
    { owner j hj := by
        rw [hdoc]
        exact h.owner j (hjobs ▸ hj)
      revision j hj d hd := h.revision j (hjobs ▸ hj) d (hdoc ▸ hd)
      memoryRevision j hj d hd := h.memoryRevision j (hjobs ▸ hj) d (hdoc ▸ hd)
      documentDrawn d hd := (h.documentDrawn d (hdoc ▸ hd)).mono hsame.idsDrawn
      jobDrawn j hj := (h.jobDrawn j (hjobs ▸ hj)).mono hsame.idsDrawn
      handleDrawn k hk :=
        ⟨(h.handleDrawn k hk).1.mono hsame.idsDrawn, (h.handleDrawn k hk).2.mono hsame.idsDrawn⟩
      handleRow k hk j hj := h.handleRow k hk j (hjobs ▸ hj)
      handleKept k hk d hd := by
        rw [hjobs]
        exact h.handleKept k hk d (hdoc ▸ hd)
      handleContent k hk d hd := h.handleContent k hk d (hdoc ▸ hd)
      memoryHandleDrawn m hm := (h.memoryHandleDrawn m hm).mono hsame.idsDrawn
      memoryHandleRow m hm j hj := h.memoryHandleRow m hm j (hjobs ▸ hj)
      published := by
        rw [List.forall_mem_cons]
        exact ⟨⟨hjob, hcontent, hordinal⟩, h.published⟩
      memoryPublished j hj d hd hown hkind hcurrent :=
        hpublished d (hdoc ▸ hd) (h.memoryPublished j (hjobs ▸ hj) d (hdoc ▸ hd) hown hkind hcurrent)
      donePublished d hd hdone := hpublished d (hdoc ▸ hd) (h.donePublished d (hdoc ▸ hd) hdone) }

/-! ## The operations -/

/-- Statuses of one document are set, and its chunks are those of a publication. -/
theorem setDocumentStatus {id : String} {revision : Nat} {status : DocumentState}
    (h : Consistent env s)
    (hdone : status = .done → ∀ d ∈ s.db.documents, d.id = id → d.revision = revision → PublishedAt s d) :
    Consistent env { s with db := s.db.setDocumentStatus id revision status } := by
  have hq : Quiet (fun i r => i = id ∧ r = revision ∧ status = .done) s.db
      (s.db.setDocumentStatus id revision status) :=
    Quiet.setDocumentStatus fun h => ⟨rfl, rfl, h⟩
  refine h.quiet hq ?_
  rintro d hd ⟨hid, hrev, hstatus⟩
  exact hdone hstatus d hd hid hrev

theorem publish {job : ClaimedJob} {chunks : List String} {schedule : Bool} (h : Consistent env s)
    (hjob : job ∈ s.jobs) (hp : Publishes env now job chunks schedule s.db db') :
    Consistent env { s with
      db := db', publications := ⟨job, chunks, chunkRows db' job.documentId⟩ :: s.publications } := by
  obtain ⟨hcurrent, dbc, hsame, hcontent, hordinal, -, hcommit⟩ := hp
  obtain ⟨hreplaced, hpublished⟩ := h.replaceChunks hjob hcurrent hsame hcontent hordinal
  have hquiet : Quiet never dbc (finishJob dbc job.id job.revision) := Quiet.finishJob
  have hfinished := hreplaced.quiet_never hquiet
  cases schedule with
  | false =>
    obtain rfl : db' = _ := hcommit
    exact hfinished.setDocumentStatus fun _ d hd hid _ => hpublished d hd hid
  | true =>
    obtain ⟨dbj, hinsert, rfl⟩ := hcommit
    obtain ⟨d, hd, hid, hrev⟩ := documentRevision_eq_some.mp hcurrent
    have hscheduled := hfinished.insertJob hinsert ⟨d, hsame.documents ▸ hd, hid, hrev⟩
      fun _ d hd hid => hpublished d hd hid
    obtain ⟨_, jobs, _, rfl⟩ := insertJob_ok hinsert
    have hnot : DocumentState.indexing ≠ .done := nofun
    exact hscheduled.setDocumentStatus fun hdone => absurd hdone hnot

theorem enqueueUnlessActive {id : String} {enqueued : Bool} (h : Consistent env s)
    (henqueue : enqueueUnlessActive env now s.db id = .ok (enqueued, db')) :
    Consistent env { s with db := db' } := by
  rcases enqueueUnlessActive_ok henqueue with ⟨_, rfl⟩ | ⟨_, d, hd, hid, hinsert⟩
  · exact h
  · exact h.insertJob hinsert ⟨d, hd, hid, rfl⟩ nofun

theorem requeue {existing : Document} {input : UpsertDocument} {hash : String} {result : UpsertResult}
    (h : Consistent env s) (hr : requeue env now s.db existing input hash = .ok (result, db')) :
    Consistent env { s with db := db' } := by
  obtain ⟨_, dbu, _, hupdate, henqueue⟩ := requeue_ok hr
  have hupdated := h.updateFull (by decide) hupdate
  exact hupdated.enqueueUnlessActive henqueue

theorem upsertDocument {orgId : String} {input : UpsertDocument} {result : UpsertResult}
    (h : Consistent env s)
    (hupsert : upsertDocumentFor env now orgId input s.db = .ok (result, db')) :
    Consistent env { s with db := db' } := by
  obtain ⟨_, _, ⟨existing, _, happly⟩ | hnew⟩ := upsertDocumentFor_ok hupsert
  · rcases applyExisting_ok happly with rfl | ⟨metadata, rfl⟩ | ⟨_, hrequeue⟩
    · exact h
    · exact h.quiet_never
        (Quiet.updateDocuments (fun _ => rfl) (fun _ => rfl) fun _ _ _ hdone => .inl hdone)
    · exact h.requeue hrequeue
  · obtain ⟨document, documents, _, hid, hstatus, _, hins, henqueue⟩ := insertNew_ok hnew
    have hdone : document.status ≠ .done := by simp [hstatus]
    exact (h.insertDocument hid hdone hins).enqueueUnlessActive henqueue

theorem claimJob {k : ClaimedJob} (h : Consistent env s)
    (hclaim : claimJob now s.db = (some k, db')) :
    Consistent env { s with db := db', jobs := k :: s.jobs } := by
  obtain ⟨j, d, hj, hd, hown, hkind, hstatus, hrev, hk, rfl⟩ := claimJob_some hclaim
  have hq : Quiet never s.db ((startJob s.db k.id k.revision).setDocumentStatus k.documentId
      k.revision .extracting) := Quiet.startJob.trans (Quiet.setDocumentStatus nofun)
  obtain ⟨j', hj', hjid⟩ := hq.jobKept j hj
  obtain ⟨i, hi, ⟨hid, hdoc', hkind', hrev'⟩, _⟩ := hq.job j' hj'
  obtain rfl := Table.eq_of_key hi hj (hid.symm.trans hjid)
  obtain ⟨d', hd', hdid⟩ := hq.documentKept d hd
  obtain ⟨e, he, heid, herev, hecontent, _⟩ := hq.document d' hd'
  obtain rfl := Table.eq_of_key he hd (heid.symm.trans hdid)
  exact (h.quiet_never hq).addHandle hj' hd' (heid.trans (hown.trans hdoc'.symm)) (hkind'.trans hkind)
    (hrev'.trans (hrev.trans herev.symm)) (by rw [hk, hid, heid, hecontent, hrev'])

theorem claimMemoryJob {m : ClaimedMemoryJob} (h : Consistent env s)
    (hclaim : claimMemoryJob now s.db = .ok (some m, db')) :
    Consistent env { s with db := db', memoryJobs := m :: s.memoryJobs } := by
  obtain ⟨j, d, hj, _, hown, hkind, _, _, hmid, hmdoc, hmrev, rfl⟩ := claimMemoryJob_some hclaim
  have hq : Quiet never s.db (startJob s.db m.id m.revision) := Quiet.startJob
  obtain ⟨j', hj', hjid⟩ := hq.jobKept j hj
  obtain ⟨i, hi, ⟨hid, hdoc', hkind', hrev'⟩, _⟩ := hq.job j' hj'
  obtain rfl := Table.eq_of_key hi hj (hid.symm.trans hjid)
  exact (h.quiet_never hq).addMemoryHandle hj' (hkind'.trans hkind) (hmid.trans hid.symm)
    (hmdoc.trans (hown.trans hdoc'.symm)) (hmrev.trans hrev'.symm)

theorem markJobStage {job : ClaimedJob} {stage : DocumentState} (h : Consistent env s)
    (hmark : markJobStage job stage s.db = .ok db') : Consistent env { s with db := db' } := by
  obtain ⟨expected, hexpected, _, _, rfl⟩ := markJobStage_ok hmark
  obtain ⟨hstage, hclaimed⟩ := expectedStage_claimed hexpected
  refine h.quiet_never ((Quiet.advanceJob hclaimed).trans (Quiet.setDocumentStatus fun hdone => ?_))
  exact absurd hstage.isActive (hdone ▸ DocumentState.not_isActive_done)

/-- The document of a memory row at its revision has published chunks, so it may become done. -/
theorem finishMemory {m : ClaimedMemoryJob} {documentId : String} {revision : Nat} {j : Job}
    (h : Consistent env s) (hm : m ∈ s.memoryJobs) (hj : j ∈ s.db.jobs) (hid : j.id = m.id)
    (hdoc : j.documentId = documentId) (hrev : j.revision = revision) {d : Document}
    (hd : d ∈ s.db.documents) (hdid : d.id = documentId) (hdrev : d.revision = revision) :
    PublishedAt s d :=
  h.memoryPublished j hj d hd (hdid.trans hdoc.symm) (h.memoryHandleRow m hm j hj hid).1
    (hrev.trans hdrev.symm)

theorem completeMemoryJob {m : ClaimedMemoryJob} (h : Consistent env s) (hm : m ∈ s.memoryJobs)
    (hcomplete : completeMemoryJob m s.db = .ok db') : Consistent env { s with db := db' } := by
  rcases completeMemoryJob_ok hcomplete with ⟨_, rfl⟩ | ⟨_, ⟨j, hj, hid, hrev, _⟩, rfl⟩
  · exact h.quiet_never (Quiet.updateJobs (fun _ => ⟨rfl, rfl, rfl, rfl⟩)
      fun _ _ _ h => absurd h DocumentState.not_isActive_failed)
  · have hdoc := (h.memoryHandleRow m hm j hj hid).2.1
    have hq : Quiet (fun i r => i = m.documentId ∧ r = m.revision) s.db
        ((finishMemoryJob s.db m.id m.revision).setDocumentStatus m.documentId m.revision .done) :=
      Quiet.finishMemoryJob.trans (Quiet.setDocumentStatus fun _ => ⟨rfl, rfl⟩)
    refine h.quiet hq ?_
    rintro d hd ⟨hdid, hdrev⟩
    exact h.finishMemory hm hj hid hdoc hrev hd hdid hdrev

theorem retryMemoryJob {m : ClaimedMemoryJob} {errorKind error : String} {retryDelay : Option Nat}
    (h : Consistent env s) (hretry : retryMemoryJob now m errorKind error retryDelay s.db = .ok db') :
    Consistent env { s with db := db' } := by
  rcases retryMemoryJob_ok hretry with ⟨_, rfl⟩ | ⟨_, _, _, ⟨_, rfl⟩ | rfl⟩
  · exact h.quiet_never Quiet.markMemoryJobStale
  · exact h.quiet_never Quiet.retriedJob
  · exact h.quiet_never (Quiet.retriedJob.trans (Quiet.setDocumentStatus nofun))

theorem reconcileMemories {batch : Batch} {expectedRevision : Option Nat}
    {completion : Option ClaimedMemoryJob} {proposals : List MemoryProposal}
    {records : List MemoryRecord} (h : Consistent env s) (hm : ∀ m ∈ completion, m ∈ s.memoryJobs)
    (hreconcile : reconcileMemoriesFor env now batch expectedRevision (completion.map (·.id)) proposals
      s.db = .ok (records, db')) : Consistent env { s with db := db' } := by
  obtain ⟨source, _, _, _, t, hloop, _, hfinish⟩ := reconcileMemoriesFor_ok hreconcile
  have hmemories : MemoriesOnly s.db t.db := reconcileProposals_memoriesOnly hloop
  have hreconciled := h.quiet_never (Quiet.memoriesOnly hmemories)
  rcases hfinish with ⟨_, rfl⟩ | ⟨jobId, hjobId, hfinish⟩
  · exact hreconciled
  · obtain ⟨m, hcompletion, rfl⟩ := Option.map_eq_some_iff.mp hjobId
    obtain ⟨⟨j, hj, hid, hdoc, hrev, _⟩, rfl⟩ := finishReconciliation_ok hfinish
    have hq : Quiet (fun i r => i = batch.documentId ∧ r = source.revision) t.db
        ((finishedReconciliation t.db m.id batch.documentId source.revision).setDocumentStatus
          batch.documentId source.revision .done) :=
      Quiet.finishedReconciliation.trans (Quiet.setDocumentStatus fun _ => ⟨rfl, rfl⟩)
    refine hreconciled.quiet hq ?_
    rintro d hd ⟨hdid, hdrev⟩
    exact hreconciled.finishMemory (hm m hcompletion) hj hid hdoc hrev hd hdid hdrev

/-- A call that is enabled keeps the invariant, whether it commits or fails. -/
theorem after {call : Call} (h : Consistent env s) (hissued : call.Issued s) :
    Consistent env (s.after call (call.run env now s.db)) := by
  obtain ⟨hjob, hmemoryJob⟩ := hissued
  have heffect := call.effect env now s.db
  generalize call.run env now s.db = r at heffect ⊢
  cases heffect with
  | failed => exact h
  | nothing hnone hnoneMemory hunpublished =>
    rw [System.after_nothing hnone hnoneMemory hunpublished]
    exact h
  | upserted hr => exact h.upsertDocument hr
  | claimed hr => exact h.claimJob hr
  | staged hr => exact h.markJobStage hr
  | published hown hpublished _ hr =>
    have hpublish := h.publish (hjob _ hown) (publishJob_ok hr)
    simpa only [System.after, hpublished] using hpublish
  | failedJob => exact h.quiet_never Quiet.failJob
  | deletedEmpty => exact h.deleteDocument _
  | deleted => exact h.deleteDocument _
  | claimedMemory hr => exact h.claimMemoryJob hr
  | @cached job result =>
    have hcache : Quiet never s.db (Storage.cacheMemoryExtraction job result s.db).2 :=
      Quiet.cacheMemoryExtraction
    have hquiet := h.quiet_never hcache
    cases (Storage.cacheMemoryExtraction job result s.db).1 with
    | error e => exact hquiet
    | ok _ => exact hquiet
  | @completedMemory job _ hr => exact h.completeMemoryJob (hmemoryJob job rfl) hr
  | retried hr => exact h.retryMemoryJob hr
  | reconciled hr => exact h.reconcileMemories hmemoryJob hr
  | forgot hr =>
    obtain ⟨_, _, _, _, rfl⟩ := forgetMemoryFor_ok hr
    exact h.quiet_never (Quiet.memoriesOnly ⟨rfl, rfl, rfl, rfl, le_refl _⟩)
  | opened hr => exact h.quiet_never (Quiet.openStorage hr)

theorem start (hs : s.Empty) : Consistent env s := by
  obtain ⟨organizations, rfl⟩ := hs
  constructor <;> intros <;> simp_all

end Consistent

/-- Every reachable state of the store is consistent. -/
theorem consistent_of_reachable (h : (machine env).Reachable s) : Consistent env s := by
  refine h.invariant (fun s hs => .start hs) ?_
  intro s event s' _ hs hstep
  obtain ⟨hissued, rfl⟩ := machine_step.mp hstep
  exact hs.after hissued

end Storage
