-- SUMMARY: The documents that an import inserts: they have no jobs, and no opening of the database gives them one.
import Supermemory.Storage.LocalIdentity
import Supermemory.Storage.StatusSteps

/-!
# Imported documents

An import copies the status of a document and enqueues nothing. Opening the database
recovers the documents that have a job, so the status of an imported document stays what
it was in the export.
-/

namespace Storage

variable {env : Env} {importer : Importer} {now : Time} {s s' : Import} {row : Object}

/-- The status that an import gives to the document of a row. -/
def importedStatus (row : Object) : DocumentState := compatibleDocumentStatus (optionalField row "status")

/-- The rows of the documents that are inserted: the first one of each identifier that is not stored. -/
def insertedRows (stored : List String) : List Object → List Object
  | [] => []
  | row :: rest =>
    match optionalField row "id" with
    | none => insertedRows stored rest
    | some id => if id ∈ stored then insertedRows stored rest else row :: insertedRows (id :: stored) rest

-- ---------------------------------------------------------------------------
-- The import
-- ---------------------------------------------------------------------------

/-- The import of one document: it is stored already, or it is inserted. -/
theorem importDocument_ok (h : importDocument importer s row = .ok s') :
    ∃ d, optionalField row "id" = some d.id ∧ d.status = importedStatus row ∧ (s.db.hasDocument d.id ∧ s'.db = s.db ∨
      ∃ documents, s.db.documents.insert d = some documents ∧ s'.db = { s.db with documents }) := by
  simp only [importDocument, Loop.bind_ok] at h
  obtain ⟨_, _, id, hid, _, _, _, _, _, _, _, _, inserted, hinsert, h⟩ := h
  split at h
  · cases h
    have hold := insertDocument_none hinsert
    exact ⟨_, field_ok hid, rfl, .inl ⟨hold, rfl⟩⟩
  · cases h
    obtain ⟨documents, hdocuments, rfl⟩ := insertDocument_some hinsert
    exact ⟨_, field_ok hid, rfl, .inr ⟨documents, hdocuments, rfl⟩⟩

/-- The documents that were inserted are those of the rows that were not stored, in the order of the export. -/
theorem importDocuments_inserts {rows : List Object} {stored : List String}
    (hstored : ∀ id, id ∈ stored ↔ s.db.hasDocument id) (h : rows.foldlM (importDocument importer) s = .ok s') :
    ∃ inserted, s'.db.documents.rows = s.db.documents.rows ++ inserted ∧
      inserted.map Document.status = (insertedRows stored rows).map importedStatus := by
  induction rows generalizing s stored with
  | nil =>
    cases Loop.foldlM_nil_ok.mp h
    exact ⟨[], (List.append_nil _).symm, rfl⟩
  | cons row rest ih =>
    obtain ⟨t, hfirst, hrest⟩ := Loop.foldlM_cons_ok.mp h
    obtain ⟨d, hid, hstatus, ⟨hold, hdb⟩ | ⟨documents, hinsert, hdb⟩⟩ := importDocument_ok hfirst
    · obtain ⟨inserted, hrows, hall⟩ := ih (hdb.symm ▸ hstored) hrest
      refine ⟨inserted, by rw [hrows, hdb], ?_⟩
      simp only [insertedRows, hid, if_pos ((hstored d.id).mpr hold)]
      exact hall
    · have hnew : d.id ∉ stored := by
        intro hmem
        obtain ⟨e, he, hid⟩ := (hstored d.id).mp hmem
        exact Table.insert_fresh hinsert e he hid
      have hstored' : ∀ id, id ∈ d.id :: stored ↔ t.db.hasDocument id := by
        intro id
        rw [List.mem_cons, hstored, hdb]
        constructor
        · rintro (rfl | ⟨e, he, hid⟩)
          · exact ⟨d, (Table.mem_insert hinsert).mpr (.inr rfl), rfl⟩
          · exact ⟨e, (Table.mem_insert hinsert).mpr (.inl he), hid⟩
        · rintro ⟨e, he, rfl⟩
          rcases (Table.mem_insert hinsert).mp he with he | rfl
          · exact .inr ⟨e, he, rfl⟩
          · exact .inl rfl
      obtain ⟨inserted, hrows, hall⟩ := ih hstored' hrest
      refine ⟨d :: inserted, ?_, ?_⟩
      · rw [hrows, hdb]
        simp [Table.insert_rows hinsert]
      · simp only [insertedRows, hid, if_neg hnew, List.map_cons, hall, hstatus]

-- ---------------------------------------------------------------------------
-- Opening the database
-- ---------------------------------------------------------------------------

/-- The database after it was opened at several times. -/
def reopened (env : Env) (times : List Time) (db : Database) : Except StorageError Database :=
  times.foldlM (fun db now => (openStorage env now db).map (·.2)) db

/-- The documents outside a set have no jobs, and they are those of a database. -/
structure Waiting (Old : String → Prop) (fixed db : Database) : Prop where
  jobs : ∀ j ∈ db.jobs, Old j.documentId
  documents : ∀ d, ¬ Old d.id → (d ∈ db.documents ↔ d ∈ fixed.documents)

theorem recoverDocuments_waiting {Old : String → Prop} {fixed db : Database} {kind : JobKind} {status : DocumentState}
    (h : Waiting Old fixed db) : Waiting Old fixed (recoverDocuments db kind status) := by
  refine ⟨h.jobs, ?_⟩
  have hsame {d : Document} (hd : ¬ Old d.id) : recovered db kind status d = d := by
    apply if_neg
    rintro ⟨⟨j, hj, hown, _⟩, _⟩
    exact hd (hown ▸ h.jobs j hj)
  intro d hd
  rw [mem_recoverDocuments, ← h.documents d hd]
  constructor
  · rintro ⟨e, he, rfl⟩
    have hid : (recovered db kind status e).id = e.id := by
      unfold recovered
      split <;> rfl
    rwa [hsame (hid ▸ hd)]
  · exact fun hmem => ⟨d, hmem, (hsame hd).symm⟩

/-- Opening the database recovers no document that has no job. -/
theorem openStorage_waiting {Old : String → Prop} {fixed db db' : Database} {orgId : String}
    (h : Waiting Old fixed db) (hopen : openStorage env now db = .ok (orgId, db')) : Waiting Old fixed db' := by
  obtain ⟨organizations, idsDrawn, _, rfl⟩ := openStorage_ok hopen
  apply recoverDocuments_waiting
  apply recoverDocuments_waiting
  refine ⟨?_, h.documents⟩
  intro j hj
  dsimp only [failStaleMemoryJobs] at hj
  obtain ⟨i, hi, _, rfl⟩ := Table.of_mem_update hj
  obtain ⟨k, hk, rfl⟩ := mem_requeueJobs.mp hi
  have hown : Old (requeued now k).documentId := (requeued_same now k).2.1 ▸ h.jobs k hk
  split
  · exact hown
  · exact hown

theorem reopened_waiting {Old : String → Prop} {fixed db db' : Database} {times : List Time} (h : Waiting Old fixed db)
    (hopen : reopened env times db = .ok db') : Waiting Old fixed db' := by
  apply Loop.invariant (I := Waiting Old fixed) _ h hopen
  intro db now db' hwaiting hone
  cases hr : openStorage env now db with
  | error e =>
    rw [hr] at hone
    cases hone
  | ok r =>
    rw [hr] at hone
    cases hone
    exact openStorage_waiting hwaiting hr

-- ---------------------------------------------------------------------------
-- The whole import
-- ---------------------------------------------------------------------------

def exportedDocuments (importer : Importer) (lines : List (Option String)) : List Object :=
  match readLines importer 1 lines ([], false) with
  | .error _ => []
  | .ok (tables, _) => tableRows tables "document"

/-- The document has an active job at its revision. -/
def HasActiveJob (db : Database) (d : Document) : Prop :=
  ∃ j ∈ db.jobs, j.documentId = d.id ∧ j.revision = d.revision ∧ j.status.IsActive

/-- An import adds the documents of the rows that are not stored, and none of them has a job. -/
theorem importLegacyExport_waiting {db db' : LegacyDatabase} {localOrgId : String} {lines : List (Option String)}
    {report : LegacyImportReport} (hjobs : ∀ j ∈ db.jobs, db.hasDocument j.documentId)
    (h : importLegacyExport env importer now localOrgId lines db = .ok (report, db')) :
    Waiting db.hasDocument db'.toDatabase db'.toDatabase ∧ ∃ inserted,
      db'.documents.rows = db.documents.rows ++ inserted ∧ (∀ d ∈ inserted, ¬ db.hasDocument d.id) ∧
      inserted.map Document.status =
        (insertedRows (db.documents.rows.map Document.id) (exportedDocuments importer lines)).map importedStatus := by
  simp only [importLegacyExport, Loop.bind_ok] at h
  obtain ⟨⟨tables, complete⟩, hread, h⟩ := h
  split at h
  · obtain ⟨s₁, s₂, s₃, _, _, _, _, _, _, _, hdocuments, _, _, _, _, _, _, _, _, hbefore, hafter, hsame⟩ :=
      importLegacyTables_ok h
    have hstored : ∀ id, id ∈ db.documents.rows.map Document.id ↔ s₂.db.hasDocument id := by
      intro id
      rw [Database.hasDocument, hbefore]
      exact List.mem_map
    obtain ⟨inserted, hrows, hall⟩ := importDocuments_inserts hstored hdocuments
    rw [← hafter, hbefore] at hrows
    refine ⟨⟨hsame ▸ hjobs, fun d _ => Iff.rfl⟩, inserted, hrows, ?_, ?_⟩
    · rintro d hd ⟨e, he, hid⟩
      have hnodup := db'.documents.nodup
      rw [hrows, List.map_append] at hnodup
      exact (List.nodup_append.mp hnodup).2.2 _ (List.mem_map_of_mem he) _ (List.mem_map_of_mem hd) hid
    · rwa [exportedDocuments, hread]
  · cases h

/-- However often the database is opened after an import, every document that was imported in progress has an active
    job exactly when none was. -/
theorem imported_documents_have_jobs {db db' : LegacyDatabase} {db'' : Database} {localOrgId : String}
    {lines : List (Option String)} {report : LegacyImportReport} {times : List Time}
    (hjobs : ∀ j ∈ db.jobs, db.hasDocument j.documentId)
    (himport : importLegacyExport env importer now localOrgId lines db = .ok (report, db'))
    (hopen : reopened env times db'.toDatabase = .ok db'') :
    (∀ d ∈ db''.documents, ¬ db.hasDocument d.id → d.status.IsActive → HasActiveJob db'' d) ↔
      ∀ row ∈ insertedRows (db.documents.rows.map Document.id) (exportedDocuments importer lines),
        ¬ (importedStatus row).IsActive := by
  obtain ⟨hwaiting, inserted, hrows, hnew, hall⟩ := importLegacyExport_waiting hjobs himport
  have hwaiting' := reopened_waiting hwaiting hopen
  have hnone {d : Document} (hd : ¬ db.hasDocument d.id) : ¬ HasActiveJob db'' d := by
    rintro ⟨j, hj, hown, _⟩
    exact hd (hown ▸ hwaiting'.jobs j hj)
  have hrest : (∀ row ∈ insertedRows (db.documents.rows.map Document.id) (exportedDocuments importer lines),
      ¬ (importedStatus row).IsActive) ↔ ∀ d ∈ inserted, ¬ d.status.IsActive := by
    calc _ ↔ ∀ status ∈ (insertedRows (db.documents.rows.map Document.id) (exportedDocuments importer lines)).map
          importedStatus, ¬ status.IsActive := List.forall_mem_map.symm
      _ ↔ ∀ status ∈ inserted.map Document.status, ¬ status.IsActive := by rw [hall]
      _ ↔ ∀ d ∈ inserted, ¬ d.status.IsActive := List.forall_mem_map
  rw [hrest]
  constructor
  · intro hactive d hd hprogress
    have hmem : d ∈ db'.documents := by
      rw [← Table.mem_rows, hrows]
      exact List.mem_append_right _ hd
    exact hnone (hnew d hd) (hactive d ((hwaiting'.documents d (hnew d hd)).mpr hmem) (hnew d hd) hprogress)
  · intro hrest d hd hfresh hprogress
    have hmem : d ∈ db.documents.rows ++ inserted := by
      rw [← hrows]
      exact (hwaiting'.documents d hfresh).mp hd
    rcases List.mem_append.mp hmem with hold | hd
    · exact absurd ⟨d, hold, rfl⟩ hfresh
    · exact absurd hprogress (hrest d hd)

/-- The line of a document of the local organization. -/
def documentLine (status : String) : String :=
  "\x7b\"type\":\"row\",\"table\":\"document\",\"row\":\x7b\"id\":\"memo\",\"org_id\":\"\",\"content_hash\":\"h\",\"status\":\"" ++
    status ++ "\",\"created_at\":\"2024\",\"updated_at\":\"2024\"\x7d\x7d"

/-- A parser of the lines of a document that is done and of one that is queued, and of the end of an export. -/
def documentLines : Importer where
  fromStr line :=
    let documentRow (status : String) : Value :=
      .object [("type", .string "row"), ("table", .string "document"),
        ("row", .object [("id", .string "memo"), ("org_id", .string ""), ("content_hash", .string "h"),
          ("status", .string status), ("created_at", .string "2024"), ("updated_at", .string "2024")])]
    if line = documentLine "done" then some (documentRow "done")
    else if line = documentLine "queued" then some (documentRow "queued")
    else twoLines.fromStr line
  toF32 _ := none
  digest _ := []

def documentExport (status : String) : List (Option String) :=
  [some (documentLine status), some "\x7b\"type\":\"complete\"\x7d"]

/-- A document that is done waits for no job. -/
theorem imported_documents_have_jobs_done : ∃ report db',
    importLegacyExport unaryEnv documentLines 0 "" (documentExport "done") firstOpened.db = .ok (report, db') ∧
    report.documents = 1 ∧ ∀ times db'', reopened unaryEnv times db'.toDatabase = .ok db'' →
      ∀ d ∈ db''.documents, ¬ firstOpened.db.hasDocument d.id → d.status.IsActive → HasActiveJob db'' d := by
  have himports : ∃ r ∈ (importLegacyExport unaryEnv documentLines 0 "" (documentExport "done") firstOpened.db).toOption,
      r.1.documents = 1 := by
    decide +kernel
  obtain ⟨⟨report, db'⟩, hr, hreport⟩ := himports
  have himport := Loop.ok_of_mem_toOption hr
  refine ⟨report, db', himport, hreport, fun times db'' hopen => ?_⟩
  have hjobs : ∀ j ∈ firstOpened.db.jobs, firstOpened.db.hasDocument j.documentId :=
    fun j hj => absurd hj Table.not_mem_empty
  exact (imported_documents_have_jobs hjobs himport hopen).mpr (by decide +kernel)

/-- A queued document stays queued without a job. -/
theorem imported_document_stranded : ∃ report db',
    importLegacyExport unaryEnv documentLines 0 "" (documentExport "queued") firstOpened.db = .ok (report, db') ∧
    ∀ times db'', reopened unaryEnv times db'.toDatabase = .ok db'' →
      ∃ d ∈ db''.documents, ¬ firstOpened.db.hasDocument d.id ∧ d.status = .queued ∧ ¬ HasActiveJob db'' d := by
  have himports : ∃ r ∈ (importLegacyExport unaryEnv documentLines 0 "" (documentExport "queued") firstOpened.db).toOption,
      ∃ d ∈ r.2.documents.rows, d.status = .queued := by
    decide +kernel
  obtain ⟨⟨report, db'⟩, hr, d, hd, hqueued⟩ := himports
  have himport := Loop.ok_of_mem_toOption hr
  refine ⟨report, db', himport, fun times db'' hopen => ?_⟩
  have hjobs : ∀ j ∈ firstOpened.db.jobs, firstOpened.db.hasDocument j.documentId :=
    fun j hj => absurd hj Table.not_mem_empty
  have hwaiting := reopened_waiting (importLegacyExport_waiting hjobs himport).1 hopen
  have hnew : ¬ firstOpened.db.hasDocument d.id := by
    rintro ⟨e, he, _⟩
    exact absurd he Table.not_mem_empty
  refine ⟨d, (hwaiting.documents d hnew).mpr hd, hnew, hqueued, ?_⟩
  rintro ⟨j, hj, hown, _⟩
  exact hnew (hown ▸ hwaiting.jobs j hj)

end Storage
