-- SUMMARY: When a handle whose row is no longer claimed changes nothing, and what every run without other uses keeps.
import Supermemory.Storage.Discipline

/-!
# Fencing

A handle is superseded when its row is queued again, done, or failed, for example
because a second process opened the database. Most operations check the status of
the row; publishing, failing, caching and completing do not in all of their
branches. `Fenced` says when a call with a superseded handle changes nothing.
-/

namespace Storage

variable {env : Env} {now : Time} {db db' : Database} {s s' : System} {call : Call}

/-! ## Superseded handles -/

/-- The job row and the document a handle names. -/
structure Handle where
  id : String
  documentId : String
  deriving DecidableEq

/-- The handle of an operation that acts for a claimed job. -/
def Call.handle : Call → Option Handle
  | .markJobStage job _ | .completeJob job _ | .completeEmbeddedJob job _ _ _
  | .completeEmbeddedJobWithMemoryExtraction job _ _ _ | .failJob job _ =>
    some ⟨job.id, job.documentId⟩
  | .cacheMemoryExtraction job _ | .completeMemoryJob job | .retryMemoryJob job _ _ _ =>
    some ⟨job.id, job.documentId⟩
  | .reconcileMemories _ _ completion _ => completion.map fun job => ⟨job.id, job.documentId⟩
  | _ => none

/-- The row of the handle is there, and not claimed. -/
def Superseded (db : Database) (call : Call) : Prop :=
  ∃ h ∈ call.handle, ∃ j ∈ db.jobs.rows, j.id = h.id ∧ ¬ j.status.IsClaimed

instance (db : Database) : DecidablePred (Superseded db) := fun call =>
  match h : call.handle with
  | none => isFalse (by simp [Superseded, h])
  | some k => decidable_of_iff (∃ j ∈ db.jobs.rows, j.id = k.id ∧ ¬ j.status.IsClaimed)
      (by simp [Superseded, h])

/-- The positions, texts and stable identifiers of a document's chunks. -/
def chunkView (db : Database) (documentId : String) : List (Nat × String × String) :=
  (chunkRows db documentId).map fun c => (c.ordinal, c.content, c.stableId)

/-- The document's status and chunks, the memories, and the status of the row are unchanged. -/
structure Unchanged (h : Handle) (db db' : Database) : Prop where
  document : (db'.documents.find h.documentId).map (·.status) =
    (db.documents.find h.documentId).map (·.status)
  chunks : chunkView db' h.documentId = chunkView db h.documentId
  memories : db'.memories = db.memories
  memorySources : db'.memorySources = db.memorySources
  memoryRelations : db'.memoryRelations = db.memoryRelations
  memoryEmbeddings : db'.memoryEmbeddings = db.memoryEmbeddings
  job : (db'.jobs.find h.id).map (·.status) = (db.jobs.find h.id).map (·.status)

theorem Unchanged.refl (h : Handle) (db : Database) : Unchanged h db db :=
  ⟨rfl, rfl, rfl, rfl, rfl, rfl, rfl⟩

/-! ## The condition -/

/-- A publication is refused because the document is at another revision, or because a memory job
    is to be scheduled while a job is active; or it publishes what is there already. -/
def PublicationFenced (db : Database) (job : ClaimedJob) (chunks : List String) (schedule : Bool) :
    Prop :=
  db.documentRevision job.documentId ≠ some job.revision ∨
  (schedule = true ∧ ∃ j ∈ db.jobs.rows, j.documentId = job.documentId ∧ j.revision = job.revision ∧
    j.status.IsActive) ∨
  ((chunkRows db job.documentId).map (fun c => (c.ordinal, c.content)) =
      (List.range chunks.length).zip chunks ∧
    ∃ d ∈ db.documents.rows, d.id = job.documentId ∧
      d.status = if schedule then .indexing else .done)

instance (db : Database) (job : ClaimedJob) (chunks : List String) (schedule : Bool) :
    Decidable (PublicationFenced db job chunks schedule) :=
  inferInstanceAs (Decidable (_ ∨ _))

/-- A call with a superseded handle changes nothing: a publication that is refused or repeats what
    is there, a failure of what failed already, caching for a row that is not queued, and completing
    a memory job whose revision is current or whose row failed already. -/
def Fenced (env : Env) (db : Database) : Call → Prop
  | .completeJob job chunks => PublicationFenced db job chunks false
  | .completeEmbeddedJob job chunks _ dimensions =>
    dimensions = 0 ∨ (validateChunks env dimensions chunks).isOk = false ∨
      PublicationFenced db job (chunks.map (·.content)) false
  | .completeEmbeddedJobWithMemoryExtraction job chunks _ dimensions =>
    dimensions ≠ 768 ∨ (validateChunks env dimensions chunks).isOk = false ∨
      PublicationFenced db job (chunks.map (·.content)) true
  | .failJob job _ =>
    (∀ j ∈ db.jobs.rows, j.id = job.id → j.status = .failed) ∧
      ∀ d ∈ db.documents.rows, d.id = job.documentId → d.revision = job.revision → d.status = .failed
  | .cacheMemoryExtraction job _ => ∀ j ∈ db.jobs.rows, j.id = job.id → j.status ≠ .queued
  | .completeMemoryJob job =>
    db.documentRevision job.documentId = some job.revision ∨
      ∀ j ∈ db.jobs.rows, j.id = job.id → j.status = .failed
  | _ => True

instance (env : Env) (db : Database) : DecidablePred (Fenced env db)
  | .completeJob job chunks => inferInstanceAs (Decidable (PublicationFenced db job chunks false))
  | .completeEmbeddedJob _ _ _ _ | .completeEmbeddedJobWithMemoryExtraction _ _ _ _ =>
    inferInstanceAs (Decidable (_ ∨ _ ∨ _))
  | .failJob _ _ => inferInstanceAs (Decidable (_ ∧ _))
  | .cacheMemoryExtraction job _ =>
    inferInstanceAs (Decidable (∀ j ∈ db.jobs.rows, j.id = job.id → j.status ≠ .queued))
  | .completeMemoryJob _ => inferInstanceAs (Decidable (_ ∨ _))
  | .upsertDocument _ _ | .claimJob | .markJobStage _ _ | .deleteEmptyDocument _ | .deleteDocument _ _
  | .claimMemoryJob | .retryMemoryJob _ _ _ _ | .reconcileMemories _ _ _ _ | .forgetMemory _ _ _ _ _
  | .openStorage => .isTrue trivial

/-! ## A fenced call changes nothing -/

/-- A row that is not claimed is not the extracting row some operation asks for. -/
theorem not_claimed_row {id : String} {i j : Job} (hj : j ∈ db.jobs) (hjid : j.id = id)
    (hclaimed : ¬ j.status.IsClaimed) (hi : i ∈ db.jobs) (hid : i.id = id) : ¬ i.status.IsClaimed := by
  obtain rfl := Table.eq_of_key hi hj (hid.trans hjid.symm)
  exact hclaimed

/-- The stored chunks keep their stable identifiers when they are published again. -/
theorem lookup_existingChunks {c : Chunk} {documentId : String}
    (hnodup : ((chunkRows db documentId).map (·.ordinal)).Nodup) (hc : c ∈ chunkRows db documentId) :
    (existingChunks db documentId).lookup (c.ordinal, c.content) = some c.stableId := by
  unfold existingChunks
  generalize chunkRows db documentId = rows at hnodup hc
  induction rows with
  | nil => cases hc
  | cons first rest ih =>
    rw [List.map_cons, List.nodup_cons] at hnodup
    rcases List.mem_cons.mp hc with rfl | hc
    · simp
    · have hne : c.ordinal ≠ first.ordinal := fun he =>
        hnodup.1 (he ▸ List.mem_map_of_mem hc)
      have hbeq : ((c.ordinal, c.content) == (first.ordinal, first.content)) = false :=
        beq_eq_false_iff_ne.mpr fun he => hne (Prod.mk.inj he).1
      rw [List.map_cons, List.lookup_cons, hbeq]
      exact ih hnodup.2 hc

/-- Rows with the same positions, texts and stable identifiers look the same. -/
theorem view_eq {rows rows' : List Chunk}
    (h : rows'.map (fun c => (c.ordinal, c.content)) = rows.map (fun c => (c.ordinal, c.content)))
    (hstable : ∀ c' ∈ rows', ∀ c ∈ rows, c'.ordinal = c.ordinal → c'.content = c.content →
      c'.stableId = c.stableId) :
    rows'.map (fun c => (c.ordinal, c.content, c.stableId)) =
      rows.map (fun c => (c.ordinal, c.content, c.stableId)) := by
  induction rows' generalizing rows with
  | nil =>
    cases rows with
    | nil => rfl
    | cons c rest => cases h
  | cons c' rest' ih =>
    obtain _ | ⟨c, rest⟩ := rows
    · simp at h
    simp only [List.map_cons, List.cons.injEq, Prod.mk.injEq] at h ⊢
    obtain ⟨⟨hordinal, hcontent⟩, hrest⟩ := h
    refine ⟨⟨hordinal, hcontent, hstable c' List.mem_cons_self c List.mem_cons_self hordinal hcontent⟩,
      ih hrest fun a ha b hb => ?_⟩
    exact hstable a (List.mem_cons_of_mem _ ha) b (List.mem_cons_of_mem _ hb)

theorem Publishes.view {k : ClaimedJob} {chunks : List String} {schedule : Bool}
    (hp : Publishes env now k chunks schedule db db') :
    (chunkRows db' k.documentId).map (fun c => (c.ordinal, c.content)) =
      (List.range chunks.length).zip chunks ∧
    ∀ c ∈ chunkRows db' k.documentId, ∀ stored,
      (existingChunks db k.documentId).lookup (c.ordinal, c.content) = some stored →
        c.stableId = stored := by
  obtain ⟨_, dbc, _, hcontent, hordinal, hstable, hcommit⟩ := hp
  have hrows : chunkRows db' k.documentId = chunkRows dbc k.documentId := by
    cases schedule with
    | false =>
      obtain rfl : db' = _ := hcommit
      rfl
    | true =>
      obtain ⟨dbj, hinsert, rfl⟩ := hcommit
      obtain ⟨_, _, _, rfl⟩ := insertJob_ok hinsert
      rfl
  rw [hrows]
  exact ⟨by rw [← List.zip_map', hordinal, hcontent], hstable⟩

/-- A publication leaves rows alone that are not claimed. -/
theorem Publishes.job {k : ClaimedJob} {chunks : List String} {schedule : Bool}
    (hp : Publishes env now k chunks schedule db db') {j : Job} (hj : j ∈ db.jobs)
    (hclaimed : ¬ j.status.IsClaimed) : j ∈ db'.jobs := by
  obtain ⟨_, dbc, hsame, -, -, -, hcommit⟩ := hp
  have hfinish : j ∈ (finishJob dbc k.id k.revision).jobs := by
    dsimp only [finishJob]
    rw [hsame.jobs, Table.mem_update]
    exact ⟨j, hj, (if_neg fun hguard => hclaimed hguard.2.2).symm⟩
  cases schedule with
  | false =>
    obtain rfl : db' = _ := hcommit
    exact hfinish
  | true =>
    obtain ⟨dbj, hinsert, rfl⟩ := hcommit
    obtain ⟨_, jobs, hins, rfl⟩ := insertJob_ok hinsert
    exact (Table.mem_insert hins).mpr (.inl hfinish)

/-- A publication that schedules extraction finds no active job but its own. -/
theorem Publishes.idle {k : ClaimedJob} {chunks : List String}
    (hp : Publishes env now k chunks true db db') {j : Job} (hj : j ∈ db.jobs)
    (hdoc : j.documentId = k.documentId) (hrev : j.revision = k.revision)
    (hid : j.id = k.id → ¬ j.status.IsClaimed) : ¬ j.status.IsActive := by
  obtain ⟨_, dbc, hsame, -, -, -, dbj, hinsert, -⟩ := hp
  refine (insertJob_ok hinsert).1 j ?_ hdoc hrev
  dsimp only [finishJob]
  rw [hsame.jobs, Table.mem_update]
  exact ⟨j, hj, (if_neg fun hguard => hid hguard.1 hguard.2.2).symm⟩

/-- A row that stays in the table keeps its status. -/
theorem status_kept {j : Job} (hj : j ∈ db.jobs) (hj' : j ∈ db'.jobs) :
    (db'.jobs.find j.id).map (·.status) = (db.jobs.find j.id).map (·.status) := by
  rw [Table.mem_iff_find.mp hj, Table.mem_iff_find.mp hj']

/-- Setting a status a document has already changes no status. -/
theorem setDocumentStatus_kept {id : String} {revision : Nat} {status : DocumentState}
    (h : ∀ d ∈ db.documents, d.id = id → d.revision = revision → d.status = status) :
    ((db.setDocumentStatus id revision status).documents.find id).map (·.status) =
      (db.documents.find id).map (·.status) := by
  simp only [Database.setDocumentStatus, Table.find_update, Option.map_map]
  refine Option.map_congr fun d hd => ?_
  obtain ⟨hmem, hid⟩ := Table.find_eq_some.mp hd
  simp only [Function.comp_apply]
  split
  · rename_i hguard
    exact (h d hmem hid hguard.2).symm
  · rfl

theorem Publishes.unchanged {k : ClaimedJob} {chunks : List String} {schedule : Bool} {j : Job}
    (hp : Publishes env now k chunks schedule db db') (hj : j ∈ db.jobs) (hid : j.id = k.id)
    (hclaimed : ¬ j.status.IsClaimed) (hf : PublicationFenced db k chunks schedule) :
    Unchanged ⟨k.id, k.documentId⟩ db db' := by
  obtain ⟨hdocuments, hmemories, hsources, hrelations, hembeddings⟩ := hp.document
  rcases hf with hstale | ⟨rfl, i, hi, hdoc, hrev, hactive⟩ | ⟨hview, d, hd, hdid, hstatus⟩
  · exact absurd hp.current hstale
  · exact absurd hactive (hp.idle hi hdoc hrev fun hiid => not_claimed_row hj hid hclaimed hi hiid)
  · have hordinal : (chunkRows db k.documentId).map (·.ordinal) = List.range chunks.length := by
      have := congrArg (List.map Prod.fst) hview
      rwa [List.map_map, List.map_fst_zip (by simp)] at this
    constructor
    case document =>
      rw [hdocuments]
      refine setDocumentStatus_kept fun e he heid _ => ?_
      rw [Table.eq_of_key he hd (heid.trans hdid.symm), hstatus]
    case chunks =>
      refine view_eq (hp.view.1.trans hview.symm) fun c' hc' c hc hsame_ordinal hsame_content => ?_
      refine hp.view.2 c' hc' c.stableId ?_
      rw [hsame_ordinal, hsame_content]
      exact lookup_existingChunks (hordinal ▸ List.nodup_range) hc
    case job =>
      have hkept := status_kept hj (hp.job hj hclaimed)
      rwa [hid] at hkept
    all_goals assumption

theorem failJob_unchanged {k : ClaimedJob} {error : String}
    (hf : Fenced env db (.failJob k error)) : Unchanged ⟨k.id, k.documentId⟩ db (failJob k error db) := by
  obtain ⟨hjobs, hdocuments⟩ := hf
  refine ⟨setDocumentStatus_kept hdocuments, rfl, rfl, rfl, rfl, rfl, ?_⟩
  simp only [failJob, Database.setDocumentStatus, Table.find_update, Option.map_map]
  refine Option.map_congr fun j hj => ?_
  obtain ⟨hmem, hid⟩ := Table.find_eq_some.mp hj
  simp only [Function.comp_apply]
  split
  · exact (hjobs j hmem hid).symm
  · rfl

/-- Staling rows that are not active leaves the database as it is. -/
theorem markMemoryJobStale_eq {id : String} {revision : Nat}
    (h : ∀ j ∈ db.jobs, j.id = id → ¬ j.status.IsActive) : markMemoryJobStale db id revision = db := by
  unfold markMemoryJobStale
  rw [Table.update_eq_self fun j hj hguard => h j hj hguard.1 hguard.2.2]

theorem cacheMemoryExtraction_unchanged {m : ClaimedMemoryJob} {result : String} {j : Job}
    (hj : j ∈ db.jobs) (hid : j.id = m.id) (hclaimed : ¬ j.status.IsClaimed)
    (hf : Fenced env db (.cacheMemoryExtraction m result)) :
    Unchanged ⟨m.id, m.documentId⟩ db (cacheMemoryExtraction m result db).2 := by
  rcases cacheMemoryExtraction_cases m result db with
    ⟨⟨i, hi, hiid, _, hextracting, _⟩, _⟩ | ⟨_, heq⟩
  · have hnot := not_claimed_row hj hid hclaimed hi hiid
    rw [hextracting] at hnot
    exact absurd (.inl rfl) hnot
  · rw [heq, markMemoryJobStale_eq fun i hi hiid hactive => ?_]
    · exact .refl _ _
    · rcases hactive with hqueued | hclaimed'
      · exact hf i hi hiid hqueued
      · exact not_claimed_row hj hid hclaimed hi hiid hclaimed'

theorem completeMemoryJob_unchanged {m : ClaimedMemoryJob} {j : Job} (hj : j ∈ db.jobs)
    (hid : j.id = m.id) (hclaimed : ¬ j.status.IsClaimed) (hf : Fenced env db (.completeMemoryJob m))
    (hcomplete : completeMemoryJob m db = .ok db') : Unchanged ⟨m.id, m.documentId⟩ db db' := by
  rcases completeMemoryJob_ok hcomplete with ⟨hstale, rfl⟩ | ⟨_, ⟨i, hi, hiid, _, hextracting⟩, _⟩
  · have hjobs := hf.resolve_left hstale
    refine ⟨rfl, rfl, rfl, rfl, rfl, rfl, ?_⟩
    simp only [Table.find_update, Option.map_map]
    refine Option.map_congr fun j hj => ?_
    obtain ⟨hmem, hid⟩ := Table.find_eq_some.mp hj
    simp only [Function.comp_apply]
    split
    · exact (hjobs j hmem hid).symm
    · rfl
  · have hnot := not_claimed_row hj hid hclaimed hi hiid
    rw [hextracting] at hnot
    exact absurd (.inl rfl) hnot

theorem Consistent.retryMemoryJob_unchanged {m : ClaimedMemoryJob} {errorKind error : String}
    {retryDelay : Option Nat} {j : Job} (hs : Consistent env s) (hm : m ∈ s.memoryJobs)
    (hj : j ∈ s.db.jobs) (hid : j.id = m.id) (hclaimed : ¬ j.status.IsClaimed)
    (hretry : Storage.retryMemoryJob now m errorKind error retryDelay s.db = .ok db') : db' = s.db := by
  rcases retryMemoryJob_ok hretry with ⟨hstale, rfl⟩ | ⟨_, ⟨i, hi, hiid, _, hextracting⟩, _⟩
  · -- an active memory job is at its document's revision
    refine markMemoryJobStale_eq fun i hi hiid hactive => hstale ?_
    obtain ⟨hkind, hdoc, hrev⟩ := hs.memoryHandleRow m hm i hi hiid
    obtain ⟨d, hd, hown⟩ := hs.owner i hi
    have hcurrent := hs.memoryRevision i hi d hd hown hkind hactive
    exact documentRevision_eq_some.mpr ⟨d, hd, hown.trans hdoc, hcurrent.symm.trans hrev⟩
  · have hnot := not_claimed_row hj hid hclaimed hi hiid
    rw [hextracting] at hnot
    exact absurd (.inl rfl) hnot

theorem reconcileMemories_fenced {batch : Batch} {expectedRevision : Option Nat} {m : ClaimedMemoryJob}
    {proposals : List MemoryProposal} {records : List MemoryRecord} {j : Job} (hj : j ∈ db.jobs)
    (hid : j.id = m.id) (hclaimed : ¬ j.status.IsClaimed) :
    reconcileMemoriesFor env now batch expectedRevision (some m.id) proposals db ≠ .ok (records, db') := by
  intro hreconcile
  obtain ⟨source, _, _, _, t, hloop, _, hfinish⟩ := reconcileMemoriesFor_ok hreconcile
  rcases hfinish with ⟨hnone, _⟩ | ⟨jobId, hsome, hfinish⟩
  · cases hnone
  · cases hsome
    obtain ⟨⟨i, hi, hiid, _, _, hextracting⟩, _⟩ := finishReconciliation_ok hfinish
    rw [(reconcileProposals_memoriesOnly hloop).jobs] at hi
    have hnot := not_claimed_row hj hid hclaimed hi hiid
    rw [hextracting] at hnot
    exact absurd (.inl rfl) hnot

/-- A fenced call with a superseded handle changes nothing. -/
theorem Consistent.fenced (hs : Consistent env s) (hissued : call.Issued s)
    (hsuperseded : Superseded s.db call) (hf : Fenced env s.db call) :
    ∀ h ∈ call.handle, Unchanged h s.db (call.run env now s.db).2 := by
  intro h hh
  obtain ⟨h', hh', j, hj, hid, hclaimed⟩ := hsuperseded
  obtain rfl := Option.mem_unique hh hh'
  cases call with
  | markJobStage job stage =>
    cases hh
    simp only [Call.run]
    cases hr : Storage.markJobStage job stage s.db with
    | error e => exact .refl _ _
    | ok db' =>
      obtain ⟨expected, hexpected, ⟨i, hi, hiid, _, hstatus⟩, _, _⟩ := markJobStage_ok hr
      have hnot := not_claimed_row hj hid hclaimed hi hiid
      exact absurd (hstatus ▸ (expectedStage_claimed hexpected).2) hnot
  | completeJob job chunks =>
    cases hh
    simp only [Call.run]
    cases hr : Storage.completeJob env now job chunks s.db with
    | error e => exact .refl _ _
    | ok db' => exact (completeJob_ok hr).unchanged hj hid hclaimed hf
  | completeEmbeddedJob job chunks modelId dimensions =>
    cases hh
    simp only [Call.run]
    cases hr : Storage.completeEmbeddedJob env now job chunks modelId dimensions s.db with
    | error e => exact .refl _ _
    | ok db' =>
      obtain ⟨hdimensions, hvalid, _⟩ := completeEmbeddedJob_publishes hr
      have hok : (validateChunks env dimensions chunks).isOk = true := by rw [hvalid]; rfl
      have hpublication := (hf.resolve_left hdimensions).resolve_left (by simp [hok])
      exact (completeEmbeddedJob_ok hr).unchanged hj hid hclaimed hpublication
  | completeEmbeddedJobWithMemoryExtraction job chunks modelId dimensions =>
    cases hh
    simp only [Call.run]
    cases hr : Storage.completeEmbeddedJobWithMemoryExtraction env now job chunks modelId dimensions
        s.db with
    | error e => exact .refl _ _
    | ok db' =>
      obtain ⟨hdimensions, hvalid, _⟩ := completeEmbeddedJobWithMemoryExtraction_publishes hr
      have hok : (validateChunks env dimensions chunks).isOk = true := by rw [hvalid]; rfl
      have hpublication := (hf.resolve_left hdimensions).resolve_left (by simp [hok])
      exact (completeEmbeddedJobWithMemoryExtraction_ok hr).unchanged hj hid hclaimed hpublication
  | failJob job error =>
    cases hh
    exact failJob_unchanged hf
  | cacheMemoryExtraction job result =>
    cases hh
    exact cacheMemoryExtraction_unchanged hj hid hclaimed hf
  | completeMemoryJob job =>
    cases hh
    simp only [Call.run]
    cases hr : Storage.completeMemoryJob job s.db with
    | error e => exact .refl _ _
    | ok db' => exact completeMemoryJob_unchanged hj hid hclaimed hf hr
  | retryMemoryJob job errorKind error retryDelay =>
    cases hh
    simp only [Call.run]
    cases hr : Storage.retryMemoryJob now job errorKind error retryDelay s.db with
    | error e => exact .refl _ _
    | ok db' =>
      rw [hs.retryMemoryJob_unchanged (hissued.2 job rfl) hj hid hclaimed hr]
      exact .refl _ _
  | reconcileMemories batch expectedRevision completion proposals =>
    obtain ⟨m, rfl, rfl⟩ := Option.map_eq_some_iff.mp hh
    simp only [Call.run, Option.map_some]
    cases hr : reconcileMemoriesFor env now batch expectedRevision (some m.id) proposals s.db with
    | error e => exact .refl _ _
    | ok r => exact absurd hr (reconcileMemories_fenced hj hid hclaimed)
  | _ => cases hh

/-! ## Only a fenced call changes nothing -/

/-- An update that changes no status finds only rows that have the new status already. -/
theorem status_of_kept {p : Job → Prop} [DecidablePred p] {f : Job → Job} {hf : ∀ r, r.id = (f r).id}
    {j : Job} (hj : j ∈ db.jobs) (hp : p j)
    (hkept : ((db.jobs.update p f hf).find j.id).map (·.status) =
      (db.jobs.find j.id).map (·.status)) : j.status = (f j).status := by
  rw [Table.find_update, Table.mem_iff_find.mp hj] at hkept
  simpa [hp, eq_comm] using hkept

theorem documentStatus_of_kept {id : String} {revision : Nat} {status : DocumentState} {d : Document}
    (hd : d ∈ db.documents) (hid : d.id = id) (hrev : d.revision = revision)
    (hkept : ((db.setDocumentStatus id revision status).documents.find id).map (·.status) =
      (db.documents.find id).map (·.status)) : d.status = status := by
  subst hid hrev
  simp only [Database.setDocumentStatus] at hkept
  rw [Table.find_update, Table.mem_iff_find.mp hd] at hkept
  simpa [eq_comm] using hkept

theorem Publishes.fenced {k : ClaimedJob} {chunks : List String} {schedule : Bool}
    (hp : Publishes env now k chunks schedule db db') (h : Unchanged ⟨k.id, k.documentId⟩ db db') :
    PublicationFenced db k chunks schedule := by
  obtain ⟨d, hd, hid, hrev⟩ := documentRevision_eq_some.mp hp.current
  refine .inr (.inr ⟨?_, d, hd, hid, ?_⟩)
  · have hview := congrArg (List.map fun c : Nat × String × String => (c.1, c.2.1)) h.chunks
    simp only [chunkView, List.map_map] at hview
    exact hview.symm.trans hp.view.1
  · have hdocument := h.document
    rw [hp.document.1] at hdocument
    exact documentStatus_of_kept hd hid hrev hdocument

/-- A call that changes the database, but neither document, chunks, memories nor row, is fenced. -/
theorem Consistent.fenced_of_unchanged (hs : Consistent env s) (hissued : call.Issued s) {h : Handle}
    (hh : h ∈ call.handle) (hu : Unchanged h s.db (call.run env now s.db).2) :
    Fenced env s.db call ∨ (call.run env now s.db).2 = s.db := by
  cases call with
  | completeJob job chunks =>
    cases hh
    simp only [Call.run] at hu ⊢
    cases hr : Storage.completeJob env now job chunks s.db with
    | error e => exact .inr rfl
    | ok db' =>
      rw [hr] at hu
      exact .inl ((completeJob_ok hr).fenced hu)
  | completeEmbeddedJob job chunks modelId dimensions =>
    cases hh
    simp only [Call.run] at hu ⊢
    cases hr : Storage.completeEmbeddedJob env now job chunks modelId dimensions s.db with
    | error e => exact .inr rfl
    | ok db' =>
      rw [hr] at hu
      exact .inl (.inr (.inr ((completeEmbeddedJob_ok hr).fenced hu)))
  | completeEmbeddedJobWithMemoryExtraction job chunks modelId dimensions =>
    cases hh
    simp only [Call.run] at hu ⊢
    cases hr : Storage.completeEmbeddedJobWithMemoryExtraction env now job chunks modelId dimensions
        s.db with
    | error e => exact .inr rfl
    | ok db' =>
      rw [hr] at hu
      exact .inl (.inr (.inr ((completeEmbeddedJobWithMemoryExtraction_ok hr).fenced hu)))
  | failJob job error =>
    cases hh
    refine .inl ⟨fun j hj hid => ?_, fun d hd hid hrev => documentStatus_of_kept hd hid hrev hu.document⟩
    have hrev := (hs.handleRow job (hissued.1 job rfl) j hj hid).2.2
    have hkept := hu.job
    simp only [Call.run, Storage.failJob, Database.setDocumentStatus, ← hid] at hkept
    exact status_of_kept hj ⟨rfl, hrev⟩ hkept
  | cacheMemoryExtraction job result =>
    cases hh
    refine .inl fun j hj hid hqueued => ?_
    have hrev := (hs.memoryHandleRow job (hissued.2 job rfl) j hj hid).2.2
    have hkept := hu.job
    simp only [Call.run] at hkept
    rcases cacheMemoryExtraction_cases job result s.db with
      ⟨⟨i, hi, hiid, _, hextracting, _⟩, _⟩ | ⟨_, heq⟩
    · obtain rfl := Table.eq_of_key hi hj (hiid.trans hid.symm)
      cases hextracting.symm.trans hqueued
    · rw [heq] at hkept
      simp only [markMemoryJobStale, ← hid] at hkept
      have hfailed := status_of_kept hj ⟨rfl, hrev, hqueued ▸ DocumentState.isActive_queued⟩ hkept
      cases hfailed.symm.trans hqueued
  | completeMemoryJob job =>
    cases hh
    simp only [Call.run] at hu ⊢
    cases hr : Storage.completeMemoryJob job s.db with
    | error e => exact .inr rfl
    | ok db' =>
      rw [hr] at hu
      rcases completeMemoryJob_ok hr with ⟨_, rfl⟩ | ⟨hcurrent, _, _⟩
      · refine .inl (.inr fun j hj hid => ?_)
        have hrev := (hs.memoryHandleRow job (hissued.2 job rfl) j hj hid).2.2
        have hkept := hu.job
        simp only [commit, Except.map, ← hid] at hkept
        exact status_of_kept hj ⟨rfl, hrev⟩ hkept
      · exact .inl (.inl hcurrent)
  | _ => exact .inl trivial

/-! ## Runs in which superseded handles are fenced -/

/-- The store under calls that are fenced when their handle is superseded. -/
def fencedMachine (env : Env) : Machine System (Time × Call) :=
  (machine env).restrict fun s event => Superseded s.db event.2 → Fenced env s.db event.2

/-- The job has ended. -/
def Settled (j : Job) : Prop := j.status = .done ∨ j.status = .failed

theorem Settled.not_isActive {j : Job} (h : Settled j) : ¬ j.status.IsActive := by
  rcases h with h | h
  · exact h ▸ DocumentState.not_isActive_done
  · exact h ▸ DocumentState.not_isActive_failed

theorem Settled.not_isClaimed {j : Job} (h : Settled j) : ¬ j.status.IsClaimed :=
  fun hc => h.not_isActive hc.isActive

/-- No row comes back under an identifier drawn before, and the settled rows keep their status. -/
structure Keeps (env : Env) (s t : System) : Prop where
  idsDrawn : s.db.idsDrawn ≤ t.db.idsDrawn
  row : ∀ j ∈ t.db.jobs, Drawn env s.db j.id →
    ∃ i ∈ s.db.jobs, i.id = j.id ∧ (Settled i → j.status = i.status)

theorem Keeps.refl (s : System) : Keeps env s s := ⟨le_refl _, fun j hj _ => ⟨j, hj, rfl, fun _ => rfl⟩⟩

theorem Keeps.trans {t u : System} (h : Keeps env s t) (h' : Keeps env t u) : Keeps env s u where
  idsDrawn := h.idsDrawn.trans h'.idsDrawn
  row j hj hdrawn := by
    obtain ⟨i, hi, hid, hkept⟩ := h'.row j hj (hdrawn.mono h.idsDrawn)
    obtain ⟨i₀, hi₀, hid₀, hkept₀⟩ := h.row i hi (hid ▸ hdrawn)
    refine ⟨i₀, hi₀, hid₀.trans hid, fun hsettled => ?_⟩
    have hsame := hkept₀ hsettled
    have hi_settled : Settled i := by
      unfold Settled at hsettled ⊢
      rwa [hsame]
    exact (hkept hi_settled).trans hsame

/-- Recovery leaves the settled rows. -/
theorem openStorage_settled {orgId : String} (hopen : openStorage env now db = .ok (orgId, db'))
    {j : Job} (hj : j ∈ db'.jobs) :
    ∃ i ∈ db.jobs, i.id = j.id ∧ (Settled i → j.status = i.status) := by
  obtain ⟨organizations, idsDrawn, _, rfl⟩ := openStorage_ok hopen
  dsimp only [recoverDocuments, failStaleMemoryJobs] at hj
  obtain ⟨r, hr, rfl⟩ := Table.mem_update.mp hj
  obtain ⟨i, hi, rfl⟩ := mem_requeueJobs.mp hr
  refine ⟨i, hi, ?_, fun hsettled => ?_⟩
  · split
    · exact (requeued_same now i).1.symm
    · exact (requeued_same now i).1.symm
  · have hrequeued : requeued now i = i := if_neg hsettled.not_isClaimed
    rw [hrequeued]
    split
    · rename_i hguard
      exact absurd (hguard.2.1 ▸ DocumentState.isActive_queued) hsettled.not_isActive
    · rfl

/-- A row of the handle of a call, other than of `delete_empty_document`. -/
theorem Call.handle_of_target {id : String} {k : ClaimedJob} (hk : call.job = some k) (hid : k.id = id)
    (hdelete : call ≠ .deleteEmptyDocument k) : ∃ h ∈ call.handle, h.id = id := by
  cases call with
  | deleteEmptyDocument job =>
    cases hk
    exact absurd rfl hdelete
  | markJobStage | completeJob | completeEmbeddedJob | completeEmbeddedJobWithMemoryExtraction
  | failJob =>
    cases hk
    exact ⟨_, rfl, hid⟩
  | _ => cases hk

theorem Call.handle_of_memoryTarget {id : String} {m : ClaimedMemoryJob} (hm : call.memoryJob = some m)
    (hid : m.id = id) : ∃ h ∈ call.handle, h.id = id := by
  cases call with
  | cacheMemoryExtraction | completeMemoryJob | retryMemoryJob =>
    cases hm
    exact ⟨_, rfl, hid⟩
  | reconcileMemories =>
    cases hm
    exact ⟨_, rfl, hid⟩
  | _ => cases hm

/-- A call that is fenced when its handle is superseded leaves the settled rows. -/
theorem Consistent.keeps (hs : Consistent env s) (hissued : call.Issued s)
    (hfenced : Superseded s.db call → Fenced env s.db call) :
    Keeps env s (s.after call (call.run env now s.db)) := by
  refine ⟨by simpa using Call.idsDrawn_le env now call s.db, fun j hj hdrawn => ?_⟩
  rw [System.after_db] at hj
  by_cases hopen : call = .openStorage
  · subst hopen
    simp only [Call.run] at hj
    cases hr : Storage.openStorage env now s.db with
    | error e =>
      rw [hr] at hj
      exact ⟨j, hj, rfl, fun _ => rfl⟩
    | ok r =>
      rw [hr] at hj
      exact openStorage_settled hr hj
  by_cases hdelete : ∃ k, call = .deleteEmptyDocument k
  · obtain ⟨k, rfl⟩ := hdelete
    refine ⟨j, ?_, rfl, fun _ => rfl⟩
    simp only [Call.run] at hj
    rcases deleteEmptyDocument_cases k s.db with heq | heq
    · exact heq ▸ hj
    · rw [heq] at hj
      exact (Table.mem_delete.mp hj).1
  have hown : ∀ h ∈ call.handle, h.id = j.id → ∀ i ∈ s.db.jobs, i.id = j.id → Settled i →
      j.status = i.status := by
    intro h hh hid i hi hiid hsettled
    have hsuperseded : Superseded s.db call := ⟨h, hh, i, hi, hiid.trans hid.symm, hsettled.not_isClaimed⟩
    have hunchanged : Unchanged h s.db (call.run env now s.db).2 :=
      hs.fenced hissued hsuperseded (hfenced hsuperseded) h hh
    have hjob := hunchanged.job
    rw [hid, Table.mem_iff_find.mp hj, ← hiid, Table.mem_iff_find.mp hi] at hjob
    simpa using hjob
  rcases Call.touches hopen j hj with hsame | ⟨htarget, i, hi, hiid⟩ | hfresh | ⟨_, _, i, hi, hiid, hactive⟩
  · exact ⟨j, hsame, rfl, fun _ => rfl⟩
  · refine ⟨i, hi, hiid, fun hsettled => ?_⟩
    rcases htarget with ⟨k, hk, hid⟩ | ⟨m, hm, hid⟩ | ⟨answer, hr, ⟨k, hk, hid⟩ | ⟨m, hm, hid⟩⟩
    · obtain ⟨h, hh, hhid⟩ := Call.handle_of_target hk hid fun heq => hdelete ⟨k, heq⟩
      exact hown h hh hhid i hi hiid hsettled
    · obtain ⟨h, hh, hhid⟩ := Call.handle_of_memoryTarget hm hid
      exact hown h hh hhid i hi hiid hsettled
    · obtain ⟨q, hq, hqid, _, hqueued⟩ := Call.answer_queued hr hk
      obtain rfl := Table.eq_of_key hq hi (hqid.trans (hid.trans hiid.symm))
      exact absurd (hqueued ▸ DocumentState.isActive_queued) hsettled.not_isActive
    · obtain ⟨q, hq, hqid, _, hqueued⟩ := Call.answer_memoryQueued hr hm
      obtain rfl := Table.eq_of_key hq hi (hqid.trans (hid.trans hiid.symm))
      exact absurd (hqueued ▸ DocumentState.isActive_queued) hsettled.not_isActive
  · exact absurd hdrawn hfresh
  · exact ⟨i, hi, hiid, fun hsettled => absurd hactive hsettled.not_isActive⟩

theorem fencedMachine_step {event : Time × Call} (h : (fencedMachine env).step s event = some s') :
    (Superseded s.db event.2 → Fenced env s.db event.2) ∧ event.2.Issued s ∧
      s' = s.after event.2 (event.2.run env event.1 s.db) := by
  obtain ⟨hfenced, hstep⟩ := Machine.restrict_step.mp h
  exact ⟨hfenced, machine_step.mp hstep⟩

/-- A second process opens the database while the first one indexes a document, claims the job that
    is queued again, and completes it. -/
def indexedTwice : Option System :=
  afterCalls [.openStorage, .upsertDocument "" (upsertOf "a fact"), .claimJob, .openStorage, .claimJob,
    .completeJob ⟨"xx", "x", "a fact", 1⟩ ["a fact"]]

end Storage
