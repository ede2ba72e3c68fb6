-- SUMMARY: A document that was stored is found by its identifier until it is deleted, with the text of its last upsert.
import Mathlib.Data.List.Find
import Supermemory.Storage.DocumentIdentity
import Supermemory.Storage.Statements

/-!
# Presence

Reading a document and deleting one look it up in two ways that find the same row. What an
upsert returned is in the store, and only a deletion of that document takes it out again.
Its text stays as it is until an upsert of its organization rewrites it.
-/

namespace Storage

variable {env : Env} {now : Time} {db db' : Database}

-- ---------------------------------------------------------------------------
-- Lookups
-- ---------------------------------------------------------------------------

/-- The first document of an organization that a column names. -/
def queryOne (db : Database) (predicate : Document → Prop) [DecidablePred predicate] (orgId : String) :
    Option Document :=
  db.documents.rows.find? fun d => d.orgId = orgId ∧ predicate d

/-- Finds a document by internal and then by custom identifier. -/
def findDocumentFor (orgId identifier : String) (db : Database) : Option Document :=
  match queryOne db (fun d => d.id = identifier) orgId with
  | some found => some found
  | none => queryOne db (fun d => d.customId = some identifier) orgId

/-- A document is read by the two queries that a deletion makes in one. -/
theorem findDocumentFor_eq (orgId identifier : String) :
    findDocumentFor orgId identifier db = findIdentifier db orgId identifier := by
  have hfirst : (db.documents.rows.filter fun d => d.orgId = orgId ∧ (d.id = identifier ∨ d.customId = some identifier)).find?
      (fun d => d.id = identifier) = queryOne db (fun d => d.id = identifier) orgId := by
    rw [List.find?_filter]
    unfold queryOne
    congr 1
    funext d
    grind
  unfold findDocumentFor findIdentifier
  simp only
  rw [hfirst, List.head?_filter]
  cases hfound : queryOne db (fun d => d.id = identifier) orgId with
  | some found => rfl
  | none =>
    have habsent := List.find?_eq_none.mp hfound
    rw [Option.none_or]
    apply List.find?_congr
    intro d hd
    have hd' := habsent d hd
    grind

/-- An internal identifier finds its document, whatever custom identifiers there are. -/
theorem findDocumentFor_id {d : Document} (hd : d ∈ db.documents) : findDocumentFor d.orgId d.id db = some d := by
  have hfirst : queryOne db (fun d' => d'.id = d.id) d.orgId = some d := by
    cases hfound : queryOne db (fun d' => d'.id = d.id) d.orgId with
    | none =>
      have habsent := List.find?_eq_none.mp hfound d hd
      simp at habsent
    | some found =>
      have hguard := List.find?_some hfound
      simp only [decide_eq_true_eq] at hguard
      rw [Table.eq_of_key (List.mem_of_find?_eq_some hfound) hd hguard.2]
  unfold findDocumentFor
  rw [hfirst]

-- ---------------------------------------------------------------------------
-- Documents that stay
-- ---------------------------------------------------------------------------

/-- Every document is still there. -/
def DocumentsKept (db db' : Database) : Prop := ∀ d ∈ db.documents, ∃ d' ∈ db'.documents, d'.id = d.id

namespace DocumentsKept

theorem same (h : db'.documents = db.documents) : DocumentsKept db db' := fun d hd => ⟨d, h ▸ hd, rfl⟩

theorem update {f : Document → Document} (hrows : db'.documents.rows = db.documents.rows.map f)
    (hf : ∀ d ∈ db.documents, (f d).id = d.id) : DocumentsKept db db' := by
  intro d hd
  refine ⟨f d, ?_, hf d hd⟩
  rw [← Table.mem_rows, hrows]
  exact List.mem_map_of_mem hd

theorem setDocumentStatus {id : String} {revision : Nat} {status : DocumentState}
    (h : db'.documents = (db.setDocumentStatus id revision status).documents) : DocumentsKept db db' := by
  apply update (congrArg Table.rows h)
  intro d _
  split
  · rfl
  · rfl

theorem recoverDocuments {kind : JobKind} {status : DocumentState} :
    DocumentsKept db (recoverDocuments db kind status) := by
  apply update rfl
  intro d _
  split
  · rfl
  · rfl

theorem trans {db'' : Database} (h : DocumentsKept db db') (h' : DocumentsKept db' db'') : DocumentsKept db db'' := by
  intro d hd
  obtain ⟨d', hd', hid⟩ := h d hd
  obtain ⟨d'', hd'', hid'⟩ := h' d' hd'
  exact ⟨d'', hd'', hid'.trans hid⟩

end DocumentsKept

/-- The call deletes neither this document nor one that it names in the organization. -/
def Call.Spares (orgId id : String) : Call → Prop
  | .deleteDocument orgId' _ => orgId' ≠ orgId
  | .deleteEmptyDocument job => job.documentId ≠ id
  | _ => True

/-- A call that is no deletion keeps every document. -/
theorem Call.documentsKept {call : Call} (hdelete : ∀ orgId identifier, call ≠ .deleteDocument orgId identifier)
    (hempty : ∀ job, call ≠ .deleteEmptyDocument job) : DocumentsKept db (call.run env now db).2 := by
  have heffect := call.effect env now db
  generalize call.run env now db = r at heffect ⊢
  cases heffect with
  | failed | nothing => exact .same rfl
  | upserted hr =>
    intro d hd
    obtain ⟨d', hd', hsame⟩ := (upsert_identifies hr).kept d hd
    exact ⟨d', hd', hsame.1⟩
  | claimed hr =>
    obtain ⟨_, _, _, _, _, _, _, _, _, rfl⟩ := claimJob_some hr
    exact .setDocumentStatus rfl
  | staged hr =>
    obtain ⟨_, _, _, _, rfl⟩ := markJobStage_ok hr
    exact .setDocumentStatus rfl
  | published _ _ _ hr => exact .setDocumentStatus (publishJob_ok hr).document.1
  | failedJob => exact .setDocumentStatus rfl
  | deletedEmpty => exact absurd rfl (hempty _)
  | deleted => exact absurd rfl (hdelete _ _)
  | claimedMemory hr =>
    obtain ⟨_, _, _, _, _, _, _, _, _, _, _, rfl⟩ := claimMemoryJob_some hr
    exact .same rfl
  | @cached job result =>
    rcases cacheMemoryExtraction_cases job result db with ⟨_, heq⟩ | ⟨_, heq⟩
    · rw [heq]
      exact .same rfl
    · rw [heq]
      exact .same rfl
  | completedMemory hr =>
    rcases completeMemoryJob_ok hr with ⟨_, rfl⟩ | ⟨_, _, rfl⟩
    · exact .same rfl
    · exact .setDocumentStatus rfl
  | retried hr =>
    rcases retryMemoryJob_ok hr with ⟨_, rfl⟩ | ⟨_, _, _, ⟨_, rfl⟩ | rfl⟩
    · exact .same rfl
    · exact .same rfl
    · exact .setDocumentStatus rfl
  | reconciled hr =>
    obtain ⟨_, _, _, _, t, hloop, _, hfinish⟩ := reconcileMemoriesFor_ok hr
    have hloop : DocumentsKept db t.db := .same (reconcileProposals_memoriesOnly hloop).documents
    rcases hfinish with ⟨_, rfl⟩ | ⟨jobId, _, hfinish⟩
    · exact hloop
    · obtain ⟨_, rfl⟩ := finishReconciliation_ok hfinish
      exact hloop.trans (.setDocumentStatus rfl)
  | forgot hr =>
    obtain ⟨_, _, _, _, rfl⟩ := forgetMemoryFor_ok hr
    exact .same rfl
  | opened hr =>
    obtain ⟨organizations, idsDrawn, _, rfl⟩ := openStorage_ok hr
    have hrequeued : DocumentsKept db (failStaleMemoryJobs (requeueJobs now { db with organizations, idsDrawn })) :=
      .same rfl
    exact (hrequeued.trans .recoverDocuments).trans .recoverDocuments

theorem Call.documentStays {call : Call} {d : Document} (hspares : call.Spares d.orgId d.id) (hd : d ∈ db.documents) :
    ∃ d' ∈ (call.run env now db).2.documents, d'.id = d.id := by
  by_cases hdelete : ∃ orgId identifier, call = .deleteDocument orgId identifier
  · obtain ⟨orgId, identifier, rfl⟩ := hdelete
    simp only [Call.run, deleteDocumentFor]
    split
    · exact ⟨d, hd, rfl⟩
    · rename_i found hfind
      obtain ⟨hfound, horg⟩ := findIdentifier_some hfind
      refine ⟨d, Table.mem_delete.mpr ⟨hd, fun hid => ?_⟩, rfl⟩
      rw [Table.eq_of_key hd hfound hid] at hspares
      exact hspares horg.symm
  · by_cases hempty : ∃ job, call = .deleteEmptyDocument job
    · obtain ⟨job, rfl⟩ := hempty
      simp only [Call.run]
      rcases deleteEmptyDocument_cases job db with heq | heq
      · rw [heq]
        exact ⟨d, hd, rfl⟩
      · rw [heq]
        exact ⟨d, Table.mem_delete.mpr ⟨hd, fun hid => hspares hid.symm⟩, rfl⟩
    · exact Call.documentsKept (fun orgId identifier h => hdelete ⟨orgId, identifier, h⟩)
        (fun job h => hempty ⟨job, h⟩) d hd

-- ---------------------------------------------------------------------------
-- What an upsert stores
-- ---------------------------------------------------------------------------

variable {orgId hash : String} {input : UpsertDocument} {result : UpsertResult}

theorem updateFull_documents {id : String} {metadata : Object} {status : DocumentState}
    (h : updateFull db id input hash metadata status = .ok db') :
    db'.documents = db.documents.update (fun d => d.id = id) (rewritten input hash metadata status) := by
  rw [updateFull_ok h]
  rfl

theorem mem_setMetadata_of_ne {id : String} {metadata : Object} {d : Document} (hd : d ∈ db.documents)
    (hother : d.id ≠ id) : d ∈ (setMetadata db id metadata).documents := by
  dsimp only [setMetadata]
  rw [Table.mem_update]
  exact ⟨d, hd, (if_neg hother).symm⟩

/-- An upsert leaves the documents of other organizations as they are. -/
theorem upsert_elsewhere {d : Document} (h : upsertDocumentFor env now orgId input db = .ok (result, db'))
    (hd : d ∈ db.documents) (horg : d.orgId ≠ orgId) : d ∈ db'.documents := by
  rw [upsertDocumentFor_eq] at h
  split at h
  · rename_i existing hfind
    have hother : d.id ≠ existing.id := by
      intro hid
      rw [Table.eq_of_key hd (findExisting_mem hfind) hid] at horg
      exact horg (findExisting_orgId hfind)
    rcases applyExisting_ok h with rfl | ⟨metadata, rfl⟩ | ⟨_, hrequeue⟩
    · exact hd
    · exact mem_setMetadata_of_ne hd hother
    · obtain ⟨metadata, dbu, _, hupdate, henqueue⟩ := requeue_ok hrequeue
      rw [enqueue_documents henqueue, updateFull_documents hupdate]
      exact Table.mem_update_of_not hd hother
  · obtain ⟨new, documents, _, _, _, _, _, hinsert, henqueue⟩ := insertNew_row h
    rw [enqueue_documents henqueue]
    exact (Table.mem_insert hinsert).mpr (.inl hd)

/-- The organization has a document with the identifier, and with the text if one is given. -/
def DocumentStored (orgId id : String) (text : Option String) (db : Database) : Prop :=
  ∃ d ∈ db.documents, d.id = id ∧ d.orgId = orgId ∧ ∀ content ∈ text, d.content = content

theorem DocumentStored.someText {orgId id : String} {text : Option String} (h : DocumentStored orgId id text db) :
    DocumentStored orgId id none db := by
  obtain ⟨d, hd, hid, horg, _⟩ := h
  exact ⟨d, hd, hid, horg, nofun⟩

/-- What an upsert stores: the document that it returns, with its text if it queued the document. -/
def UpsertStored (orgId : String) (input : UpsertDocument) (result : UpsertResult) (db : Database) : Prop :=
  DocumentStored orgId result.id (if result.enqueued then some input.content else none) db

theorem text_of_ite {enqueued : Bool} {d : Document} {text : String} (h : d.content = text) :
    ∀ content ∈ if enqueued then some text else none, d.content = content := by
  intro content hcontent
  cases enqueued with
  | true => exact h.trans (Option.some_inj.mp hcontent)
  | false => cases hcontent

theorem requeue_stores {existing : Document} (hexisting : existing ∈ db.documents) (horg : existing.orgId = orgId)
    (h : requeue env now db existing input hash = .ok (result, db')) : UpsertStored orgId input result db' := by
  have hid := requeue_result h
  obtain ⟨metadata, dbu, _, hupdate, henqueue⟩ := requeue_ok h
  refine ⟨rewritten input hash metadata .queued existing, ?_, hid.symm, horg, text_of_ite rfl⟩
  rw [enqueue_documents henqueue, updateFull_documents hupdate]
  exact Table.mem_update_of hexisting rfl

theorem applyExisting_stores {existing : Document} (hexisting : existing ∈ db.documents) (horg : existing.orgId = orgId)
    (h : applyExisting env now db existing input hash = .ok (result, db')) : UpsertStored orgId input result db' := by
  unfold applyExisting at h
  simp only at h
  split at h
  · cases h
    exact ⟨existing, hexisting, rfl, horg, nofun⟩
  · split at h
    · exact requeue_stores hexisting horg h
    · split at h
      · split at h
        · cases h
          exact ⟨existing, hexisting, rfl, horg, nofun⟩
        · split at h
          · exact requeue_stores hexisting horg h
          · cases h
            exact ⟨_, mem_setMetadata hexisting, rfl, horg, nofun⟩
      · exact requeue_stores hexisting horg h

theorem insertNew_stores (h : insertNew env now db orgId input hash = .ok (result, db')) :
    UpsertStored orgId input result db' := by
  unfold insertNew at h
  simp only at h
  split at h
  · split at h
    · cases h
    · rename_i documents hinsert
      split at h
      · cases h
      · rename_i enqueued dbe henqueue
        cases h
        rw [UpsertStored, DocumentStored, enqueue_documents henqueue]
        exact ⟨_, (Table.mem_insert hinsert).mpr (.inr rfl), rfl, rfl, text_of_ite rfl⟩
  · cases h

/-- The document that an upsert returns is there. -/
theorem upsert_stores (h : upsertDocumentFor env now orgId input db = .ok (result, db')) :
    UpsertStored orgId (sanitized input) result db' := by
  rw [upsertDocumentFor_eq] at h
  split at h
  · rename_i existing hfind
    exact applyExisting_stores (findExisting_mem hfind) (findExisting_orgId hfind) h
  · exact insertNew_stores h

/-- A document after an upsert: one from before, one whose metadata was merged, one that was rewritten, or a new
    one, which is written like one that was there. -/
inductive UpsertedRow (db : Database) (input : UpsertDocument) : Document → Prop
  | kept {d : Document} (hd : d ∈ db.documents) : UpsertedRow db input d
  | merged {d : Document} (hd : d ∈ db.documents) :
      UpsertedRow db input { d with metadata := mergeMetadata d.metadata input.metadata }
  | rewritten {d : Document} {hash : String} (hd : d ∈ db.documents) :
      UpsertedRow db input (rewritten input hash (mergeMetadata d.metadata input.metadata) .queued d)
  | inserted {d : Document} {hash : String} : UpsertedRow db input (rewritten input hash input.metadata .queued d)

theorem requeue_rows {existing d' : Document} (hexisting : existing ∈ db.documents)
    (h : requeue env now db existing input hash = .ok (result, db')) (hd' : d' ∈ db'.documents) :
    UpsertedRow db input d' := by
  unfold requeue at h
  split at h
  · cases h
  · rename_i dbu hupdate
    split at h
    · cases h
    · rename_i enqueued dbe henqueue
      cases h
      rw [enqueue_documents henqueue, updateFull_documents hupdate] at hd'
      obtain ⟨d, hd, _, rfl⟩ := Table.of_mem_update hd'
      split
      · rename_i hid
        rw [Table.eq_of_key hd hexisting hid]
        exact .rewritten hexisting
      · exact .kept hd

theorem setMetadata_rows {existing d' : Document} (hexisting : existing ∈ db.documents)
    (hd' : d' ∈ (setMetadata db existing.id (mergeMetadata existing.metadata input.metadata)).documents) :
    UpsertedRow db input d' := by
  dsimp only [setMetadata] at hd'
  obtain ⟨d, hd, _, rfl⟩ := Table.of_mem_update hd'
  split
  · rename_i hid
    rw [Table.eq_of_key hd hexisting hid]
    exact .merged hexisting
  · exact .kept hd

theorem applyExisting_rows {existing d' : Document} (hexisting : existing ∈ db.documents)
    (h : applyExisting env now db existing input hash = .ok (result, db')) (hd' : d' ∈ db'.documents) :
    UpsertedRow db input d' := by
  unfold applyExisting at h
  simp only at h
  split at h
  · cases h
    exact .kept hd'
  · split at h
    · exact requeue_rows hexisting h hd'
    · split at h
      · split at h
        · cases h
          exact .kept hd'
        · split at h
          · exact requeue_rows hexisting h hd'
          · cases h
            exact setMetadata_rows hexisting hd'
      · exact requeue_rows hexisting h hd'

theorem insertNew_rows {d' : Document} (h : insertNew env now db orgId input hash = .ok (result, db'))
    (hd' : d' ∈ db'.documents) : UpsertedRow db input d' := by
  unfold insertNew at h
  simp only at h
  split at h
  · split at h
    · cases h
    · rename_i documents hinsert
      split at h
      · cases h
      · rename_i enqueued dbe henqueue
        cases h
        rw [enqueue_documents henqueue] at hd'
        cases (Table.mem_insert hinsert).mp hd' with
        | inl hold => exact .kept hold
        | inr hnew =>
          rw [hnew]
          exact .inserted (d := ⟨_, _, "", "", none, .queued, [], none, [], "", none, [], "", 0⟩)
  · cases h

theorem upsert_rows {d' : Document} (h : upsertDocumentFor env now orgId input db = .ok (result, db'))
    (hd' : d' ∈ db'.documents) : UpsertedRow db (sanitized input) d' := by
  rw [upsertDocumentFor_eq] at h
  split at h
  · rename_i existing hfind
    exact applyExisting_rows (findExisting_mem hfind) h hd'
  · exact insertNew_rows h hd'

/-- What is stored stays stored under a call that spares it, and its text under one that is no upsert of
    the organization. -/
theorem DocumentStored.call {call : Call} {id : String} {text : Option String} (h : DocumentStored orgId id text db)
    (hspares : call.Spares orgId id) (hkeeps : text.isSome → ∀ input, call ≠ .upsertDocument orgId input) :
    DocumentStored orgId id text (call.run env now db).2 := by
  obtain ⟨d, hd, rfl, rfl, htext⟩ := h
  by_cases hupsert : ∃ orgId input, call = .upsertDocument orgId input
  · obtain ⟨orgId, input, rfl⟩ := hupsert
    simp only [Call.run]
    cases hr : upsertDocumentFor env now orgId input db with
    | error e => exact ⟨d, hd, rfl, rfl, htext⟩
    | ok r =>
      by_cases horg : orgId = d.orgId
      · obtain ⟨d', hd', hsame⟩ := (upsert_identifies hr).kept d hd
        refine ⟨d', hd', hsame.1, hsame.2.1, fun content hcontent => ?_⟩
        exact absurd (congrArg (Call.upsertDocument · input) horg) (hkeeps (Option.isSome_of_mem hcontent) input)
      · exact ⟨d, upsert_elsewhere hr hd (Ne.symm horg), rfl, rfl, htext⟩
  · obtain ⟨d', hd', hid⟩ : ∃ d' ∈ (call.run env now db).2.documents, d'.id = d.id :=
      Call.documentStays hspares hd
    obtain ⟨e, he, heq, _⟩ := Call.restates (fun orgId input heq => hupsert ⟨orgId, input, heq⟩) d' hd'
    have hsame : e = d := by
      apply Table.eq_of_key he hd
      rw [← hid, heq]
    rw [hsame] at heq
    exact ⟨d', hd', hid, by rw [heq], fun content hcontent => by rw [heq]; exact htext content hcontent⟩

end Storage
