-- SUMMARY: The migration of a legacy snapshot over starts that may stop anywhere: what is imported, recorded, and served.
import Supermemory.Library.Machine
import Supermemory.Startup.LegacyExport

/-!
# The legacy snapshot

A start opens the database and takes over the legacy snapshot before it serves requests:
the snapshot is exported, the export is imported in one transaction, the exported file is
removed, and the fingerprint of the snapshot is recorded. A start may stop after any of
these steps. One that stops before the fingerprint is recorded has the next start import
the snapshot again.
-/

namespace Startup

open Storage

-- ---------------------------------------------------------------------------
-- Migration
-- ---------------------------------------------------------------------------

/-- The snapshot of a legacy installation: the SHA-256 of its file, and the database in it. -/
structure Snapshot where
  sourceHash : String
  database : Pglite

/-- A row of `legacy_imports`. -/
structure LegacyImport where
  sourceHash : String
  report : LegacyImportReport
  deriving DecidableEq

abbrev LegacyImports := Table LegacyImport LegacyImport.sourceHash

def hasLegacyImport (legacyImports : LegacyImports) (sourceHash : String) : Prop :=
  ∃ i ∈ legacyImports.rows, i.sourceHash = sourceHash

instance (legacyImports : LegacyImports) (sourceHash : String) : Decidable (hasLegacyImport legacyImports sourceHash) :=
  inferInstanceAs (Decidable (∃ i ∈ _, _))

/-- `INSERT OR IGNORE INTO legacy_imports`. -/
def recordLegacyImport (legacyImports : LegacyImports) (sourceHash : String) (report : LegacyImportReport) : LegacyImports :=
  (legacyImports.insert ⟨sourceHash, report⟩).getD legacyImports

inductive MigrationError where
  | legacyExport (error : LegacyExportError)
  | storage (error : ImportError)
  | removeLegacyExport
  deriving DecidableEq, Repr

/-- The lines of the exported file. -/
def exportLines (write : Value → String) (snapshot : Snapshot) : List (Option String) :=
  Bytes.lines (exportFile write (exportDatabase snapshot.database).records)

/-- The export of the snapshot to a file, and the import of the file. -/
def importSnapshot (env : Env) (importer : Importer) (write : Value → String) (snapshot : Snapshot) (now : Time)
    (localOrgId : String) (db : LegacyDatabase) : Except MigrationError (LegacyImportReport × LegacyDatabase) :=
  match (exportDatabase snapshot.database).outcome with
  | .error e => .error (.legacyExport e)
  | .ok () => (importLegacyExport env importer now localOrgId (exportLines write snapshot) db).mapError .storage

/-- The migration of a snapshot that is there, with what it leaves also when it fails. The exported file may resist
    its removal. -/
def migrateLegacySnapshot (env : Env) (importer : Importer) (write : Value → String) (snapshot : Snapshot) (now : Time)
    (removed : Bool) (localOrgId : String) (db : LegacyDatabase) (legacyImports : LegacyImports) :
    Except MigrationError Unit × LegacyDatabase × LegacyImports :=
  if hasLegacyImport legacyImports snapshot.sourceHash then (.ok (), db, legacyImports)
  else
    match importSnapshot env importer write snapshot now localOrgId db with
    | .error e => (.error e, db, legacyImports)
    | .ok (report, db) =>
      if removed then (.ok (), db, recordLegacyImport legacyImports snapshot.sourceHash report)
      else (.error .removeLegacyExport, db, legacyImports)

-- ---------------------------------------------------------------------------
-- Starts
-- ---------------------------------------------------------------------------

/-- How far a start has come. -/
inductive Phase where
  | down
  | opened (localOrgId : String)
  /-- The import is committed. -/
  | imported (localOrgId : String) (report : LegacyImportReport)
  | serving (localOrgId : String)
  deriving DecidableEq

structure Installation where
  db : LegacyDatabase
  legacyImports : LegacyImports
  phase : Phase
  deriving DecidableEq

inductive StartEvent where
  | open (now : Time)
  | migrate (now : Time)
  /-- The exported file is removed, and the fingerprint recorded. -/
  | record
  | call (now : Time) (call : Call)
  /-- The process ends, at any point. -/
  | stop
  deriving DecidableEq

def Installation.step (env : Env) (importer : Importer) (write : Value → String) (snapshot : Snapshot)
    (s : Installation) (event : StartEvent) : Option Installation :=
  match event, s.phase with
  | .open now, .down =>
    match openStorage env now s.db.toDatabase with
    | .error _ => none
    | .ok (localOrgId, db) => some { s with db.toDatabase := db, phase := .opened localOrgId }
  | .migrate now, .opened localOrgId =>
    if hasLegacyImport s.legacyImports snapshot.sourceHash then some { s with phase := .serving localOrgId }
    else
      match importSnapshot env importer write snapshot now localOrgId s.db with
      | .error _ => some { s with phase := .down }
      | .ok (report, db) => some { s with db, phase := .imported localOrgId report }
  | .record, .imported localOrgId report =>
    some { s with
      legacyImports := recordLegacyImport s.legacyImports snapshot.sourceHash report
      phase := .serving localOrgId }
  | .call now call, .serving _ => some { s with db.toDatabase := (call.run env now s.db.toDatabase).2 }
  | .stop, _ => some { s with phase := .down }
  | _, _ => none

/-- The starts of an installation that has a legacy snapshot, on any database. -/
def starts (env : Env) (importer : Importer) (write : Value → String) (snapshot : Snapshot) :
    Machine Installation StartEvent where
  init s := s.phase = .down
  step s event := s.step env importer write snapshot event

variable {env : Env} {importer : Importer} {write : Value → String} {parsed : String → String} {snapshot : Snapshot}
  {s s' t t' : Installation} {tables : LegacyTables} {db db' : LegacyDatabase} {now : Time} {localOrgId : String}
  {report : LegacyImportReport}

theorem hasLegacyImport_record (legacyImports : LegacyImports) (sourceHash : String) (report : LegacyImportReport) :
    hasLegacyImport (recordLegacyImport legacyImports sourceHash report) sourceHash := by
  unfold recordLegacyImport
  cases hinsert : legacyImports.insert ⟨sourceHash, report⟩ with
  | none => exact Table.insert_eq_none.mp hinsert
  | some after => exact Table.taken_of_insert hinsert

theorem importSnapshot_ok (h : importSnapshot env importer write snapshot now localOrgId db = .ok (report, db')) :
    (exportDatabase snapshot.database).outcome = .ok () ∧
      importLegacyExport env importer now localOrgId (exportLines write snapshot) db = .ok (report, db') := by
  unfold importSnapshot at h
  split at h
  · cases h
  · rename_i hok
    refine ⟨hok, ?_⟩
    cases himport : importLegacyExport env importer now localOrgId (exportLines write snapshot) db with
    | error e => rw [himport] at h; cases h
    | ok r => rw [himport] at h; exact congrArg Except.ok (Except.ok.inj h)

-- ---------------------------------------------------------------------------
-- Steps
-- ---------------------------------------------------------------------------

/-- What a step does, by the phases before and after it. -/
inductive Stepped (env : Env) (importer : Importer) (write : Value → String) (snapshot : Snapshot) (s : Installation) :
    StartEvent → Installation → Prop where
  | opened {now : Time} {localOrgId : String} {db : Database}
      (hopen : openStorage env now s.db.toDatabase = .ok (localOrgId, db)) :
      Stepped env importer write snapshot s (.open now) { s with db.toDatabase := db, phase := .opened localOrgId }
  | skipped {now : Time} {localOrgId : String} (hphase : s.phase = .opened localOrgId)
      (hrecorded : hasLegacyImport s.legacyImports snapshot.sourceHash) :
      Stepped env importer write snapshot s (.migrate now) { s with phase := .serving localOrgId }
  | failed {now : Time} {localOrgId : String} (hphase : s.phase = .opened localOrgId) :
      Stepped env importer write snapshot s (.migrate now) { s with phase := .down }
  | imported {now : Time} {localOrgId : String} {report : LegacyImportReport} {db : LegacyDatabase}
      (hphase : s.phase = .opened localOrgId) (hnew : ¬ hasLegacyImport s.legacyImports snapshot.sourceHash)
      (himport : importSnapshot env importer write snapshot now localOrgId s.db = .ok (report, db)) :
      Stepped env importer write snapshot s (.migrate now) { s with db, phase := .imported localOrgId report }
  | recorded {localOrgId : String} {report : LegacyImportReport} (hphase : s.phase = .imported localOrgId report) :
      Stepped env importer write snapshot s .record
        { s with
          legacyImports := recordLegacyImport s.legacyImports snapshot.sourceHash report
          phase := .serving localOrgId }
  | called {now : Time} {localOrgId : String} (hphase : s.phase = .serving localOrgId) (call : Call) :
      Stepped env importer write snapshot s (.call now call)
        { s with db.toDatabase := (call.run env now s.db.toDatabase).2 }
  | stopped : Stepped env importer write snapshot s .stop { s with phase := .down }

theorem Installation.stepped {event : StartEvent} (h : s.step env importer write snapshot event = some s') :
    Stepped env importer write snapshot s event s' := by
  unfold Installation.step at h
  split at h
  · split at h
    · cases h
    · rename_i hopen
      cases h
      exact .opened hopen
  · rename_i hphase
    split at h
    · rename_i hrecorded
      cases h
      exact .skipped hphase hrecorded
    · rename_i hnew
      split at h
      · cases h
        exact .failed hphase
      · rename_i himport
        cases h
        exact .imported hphase hnew himport
  · rename_i hphase
    cases h
    exact .recorded hphase
  · rename_i hphase
    cases h
    exact .called hphase _
  · cases h
    exact .stopped
  · cases h

/-- The local organization of an opened database has the local slug, and requests are served only after the
    fingerprint was recorded. -/
structure Orderly (snapshot : Snapshot) (s : Installation) : Prop where
  opened : ∀ localOrgId, s.phase = .opened localOrgId → HoldsLocalSlug s.db.toDatabase localOrgId
  serving : ∀ localOrgId, s.phase = .serving localOrgId → hasLegacyImport s.legacyImports snapshot.sourceHash

theorem orderly_of_reachable (hs : (starts env importer write snapshot).Reachable s) : Orderly snapshot s := by
  apply hs.invariant
  · intro s hinit
    refine ⟨fun _ h => ?_, fun _ h => ?_⟩ <;> cases hinit.symm.trans h
  · intro s event s' _ h hstep
    cases Installation.stepped hstep with
    | opened hopen =>
      constructor
      · intro _ hphase
        cases hphase
        exact openStorage_holdsLocalSlug hopen
      · intro _ hphase
        cases hphase
    | skipped _ hrecorded =>
      refine ⟨fun _ hphase => ?_, fun _ _ => hrecorded⟩
      cases hphase
    | failed | imported | stopped => refine ⟨fun _ hphase => ?_, fun _ hphase => ?_⟩ <;> cases hphase
    | recorded =>
      refine ⟨fun _ hphase => ?_, fun _ _ => hasLegacyImport_record _ _ _⟩
      cases hphase
    | called hphase =>
      refine ⟨fun _ hopened => ?_, h.serving⟩
      cases hphase.symm.trans hopened

-- ---------------------------------------------------------------------------
-- Snapshots that were imported
-- ---------------------------------------------------------------------------

/-- The rows of the snapshot were imported, and nothing but openings came since. -/
structure RowsSettled (env : Env) (importer : Importer) (tables : LegacyTables) (db : LegacyDatabase) : Prop where
  imported : ∃ localOrgId before, Imported env importer localOrgId tables before ∧ SameEnds before db ∧
    db.memories = before.memories
  organizations : ∀ row ∈ tableRows tables "organization", OrganizationRow (Taken db) row

theorem RowsSettled.of_imported (h : Imported env importer localOrgId tables db) : RowsSettled env importer tables db where
  imported := ⟨localOrgId, db, h, .refl db, rfl⟩
  organizations row hrow := by
    obtain ⟨id, slug, hid, hslug, hcreated, hplaced⟩ := h.organizations row hrow
    exact ⟨id, slug, hid, hslug, hcreated, hplaced.isTaken⟩

theorem RowsSettled.openStorage {opened : Database} (h : RowsSettled env importer tables db)
    (hopen : openStorage env now db.toDatabase = .ok (localOrgId, opened)) :
    RowsSettled env importer tables { db with toDatabase := opened } where
  imported := by
    obtain ⟨first, before, himported, hends, hmemories⟩ := h.imported
    obtain ⟨hopened, hsame⟩ := openStorage_sameEnds hopen
    exact ⟨first, before, himported, hends.trans hopened, hsame.trans hmemories⟩
  organizations row hrow := by
    obtain ⟨id, slug, hid, hslug, hcreated, htaken⟩ := h.organizations row hrow
    exact ⟨id, slug, hid, hslug, hcreated, openStorage_taken htaken hopen⟩

/-- An import of rows that are settled changes nothing, unless it displaces the local organization. -/
theorem RowsSettled.again (h : RowsSettled env importer tables db) (hlocal : HoldsLocalSlug db.toDatabase localOrgId)
    (hkeeps : ¬ ((∃ row ∈ tableRows tables "organization", ClaimsLocalSlug localOrgId row) ∧
      ∀ d ∈ db.documents, d.orgId ≠ localOrgId)) (later : Time) :
    importLegacyTables env importer later localOrgId tables db = .ok (.zero, db) := by
  obtain ⟨first, before, himported, hends, hmemories⟩ := h.imported
  apply himported.again hends hmemories
  intro row hrow
  obtain ⟨id, slug, hid, hslug, hcreated, htaken⟩ := h.organizations row hrow
  refine ⟨id, slug, hid, hslug, hcreated, htaken, ?_⟩
  obtain ⟨o, ho, rfl, hown⟩ := hlocal
  rintro p hp ⟨hsame, hother, howner, hempty⟩
  obtain rfl := Table.eq_of_key hp ho howner
  refine hkeeps ⟨⟨row, hrow, ?_, ?_⟩, hempty⟩
  · rw [field_ok hslug, ← hsame, hown]
  · rw [field_ok hid]
    exact fun heq => hother (Option.some_inj.mp heq).symm

/-- An import that is committed has read all lines of the exported file, and settled their rows. -/
theorem importSnapshot_imports
    (hunmarked : ∀ row ∈ exportedOrganizations importer (exportLines write snapshot), ∀ slug,
      optionalField row "slug" = some slug → Unmarked slug)
    (hlocal : HoldsLocalSlug db.toDatabase localOrgId)
    (h : importSnapshot env importer write snapshot now localOrgId db = .ok (report, db')) : ∃ tables,
    readLines importer 1 (exportLines write snapshot) ([], false) = .ok (tables, true) ∧
    importLegacyTables env importer now localOrgId tables db = .ok (report, db') ∧
    Imported env importer localOrgId tables db' := by
  obtain ⟨tables, hread, himport⟩ := importLegacyExport_ok (importSnapshot_ok h).2
  obtain ⟨o, ho, hid, _⟩ := hlocal
  have hexported : exportedOrganizations importer (exportLines write snapshot) = tableRows tables "organization" := by
    rw [exportedOrganizations, hread]
  exact ⟨tables, hread, himport, importLegacyTables_settles ⟨o, ho, hid⟩ (hexported ▸ hunmarked) himport⟩

/-- After its import is committed, and until its fingerprint is recorded, the snapshot's rows are there. -/
theorem imported_of_reachable
    (hunmarked : ∀ row ∈ exportedOrganizations importer (exportLines write snapshot), ∀ slug,
      optionalField row "slug" = some slug → Unmarked slug)
    (hs : (starts env importer write snapshot).Reachable s) (hphase : s.phase = .imported localOrgId report) :
    (exportDatabase snapshot.database).outcome = .ok () ∧ ∃ tables,
      readLines importer 1 (exportLines write snapshot) ([], false) = .ok (tables, true) ∧
      Imported env importer localOrgId tables s.db := by
  induction hs with
  | start hinit => cases hinit.symm.trans hphase
  | step hs hstep ih =>
    cases Installation.stepped hstep with
    | imported hopened _ himport =>
      cases hphase
      obtain ⟨tables, hread, _, himported⟩ :=
        importSnapshot_imports hunmarked ((orderly_of_reachable hs).opened _ hopened) himport
      exact ⟨(importSnapshot_ok himport).1, tables, hread, himported⟩
    | opened | skipped | failed | recorded | stopped => cases hphase
    | called hserving => cases hserving.symm.trans hphase

/-- The fingerprint is recorded, or the rows of the snapshot are settled. -/
def TakenOver (env : Env) (importer : Importer) (write : Value → String) (snapshot : Snapshot) (s : Installation) : Prop :=
  hasLegacyImport s.legacyImports snapshot.sourceHash ∨ ∃ tables,
    readLines importer 1 (exportLines write snapshot) ([], false) = .ok (tables, true) ∧
    RowsSettled env importer tables s.db

theorem TakenOver.run
    (hunmarked : ∀ row ∈ exportedOrganizations importer (exportLines write snapshot), ∀ slug,
      optionalField row "slug" = some slug → Unmarked slug)
    (hs : (starts env importer write snapshot).Reachable s) (h : TakenOver env importer write snapshot s)
    (hrun : (starts env importer write snapshot).Run s t) : TakenOver env importer write snapshot t := by
  induction hrun with
  | refl => exact h
  | step hrun hstep ih =>
    have horderly := orderly_of_reachable (hs.run hrun)
    cases Installation.stepped hstep with
    | opened hopen => exact ih.imp_right fun ⟨tables, hread, hsettled⟩ => ⟨tables, hread, hsettled.openStorage hopen⟩
    | skipped _ hrecorded => exact .inl hrecorded
    | failed | stopped => exact ih
    | imported hphase _ himport =>
      obtain ⟨tables, hread, _, himported⟩ := importSnapshot_imports hunmarked (horderly.opened _ hphase) himport
      exact .inr ⟨tables, hread, .of_imported himported⟩
    | recorded => exact .inl (hasLegacyImport_record _ _ _)
    | called hphase => exact .inl (horderly.serving _ hphase)

/-- A migration of what was taken over changes nothing, unless it displaces the local organization. -/
theorem TakenOver.migrate (hs : Orderly snapshot s) (h : TakenOver env importer write snapshot s)
    (hstep : s.step env importer write snapshot (.migrate now) = some s') : s'.db = s.db ∨
    ∃ localOrgId, s.phase = .opened localOrgId ∧
      Displaces importer ⟨s.db, localOrgId⟩ (.importLegacyExport localOrgId (exportLines write snapshot)) := by
  cases Installation.stepped hstep with
  | skipped | failed => exact .inl rfl
  | imported hphase hnew himport =>
    obtain ⟨tables, hread, hsettled⟩ := h.resolve_left hnew
    have hexported : exportedOrganizations importer (exportLines write snapshot) = tableRows tables "organization" := by
      rw [exportedOrganizations, hread]
    refine or_iff_not_imp_right.mpr fun hkeeps => ?_
    have hagain := hsettled.again (hs.opened _ hphase) (fun h => hkeeps ⟨_, hphase, rfl, hexported ▸ h⟩) now
    have himported := (importSnapshot_ok himport).2
    rw [importLegacyExport_eq hread, hagain] at himported
    cases himported
    rfl

/-- The fingerprint is recorded by one step, which comes after the import was committed. -/
theorem recorded_step {event : StartEvent} (hstep : s.step env importer write snapshot event = some s')
    (hnew : ¬ hasLegacyImport s.legacyImports snapshot.sourceHash)
    (hrecorded : hasLegacyImport s'.legacyImports snapshot.sourceHash) :
    s'.db = s.db ∧ ∃ localOrgId report, s.phase = .imported localOrgId report := by
  cases Installation.stepped hstep with
  | recorded hphase => exact ⟨rfl, _, _, hphase⟩
  | opened | skipped | failed | imported | called | stopped => exact absurd hrecorded hnew

theorem step_migrate (hphase : s.phase = .opened localOrgId) : (starts env importer write snapshot).step s (.migrate now) =
    if hasLegacyImport s.legacyImports snapshot.sourceHash then some { s with phase := .serving localOrgId }
    else
      match importSnapshot env importer write snapshot now localOrgId s.db with
      | .error _ => some { s with phase := .down }
      | .ok (report, db) => some { s with db, phase := .imported localOrgId report } := by
  obtain ⟨db, legacyImports, phase⟩ := s
  cases hphase
  rfl

/-- The migration is a run of steps, which ends serving when it succeeds. -/
theorem migrateLegacySnapshot_steps (hphase : s.phase = .opened localOrgId) (removed : Bool) : ∃ events s',
    (starts env importer write snapshot).replay s events = some s' ∧
    (s'.db, s'.legacyImports) =
      (migrateLegacySnapshot env importer write snapshot now removed localOrgId s.db s.legacyImports).2 ∧
    ((migrateLegacySnapshot env importer write snapshot now removed localOrgId s.db s.legacyImports).1 = .ok () ↔
      s'.phase = .serving localOrgId) := by
  have hmigrate : (starts env importer write snapshot).step s (.migrate now) = _ := step_migrate hphase
  unfold migrateLegacySnapshot
  split
  · rename_i hrecorded
    rw [if_pos hrecorded] at hmigrate
    refine ⟨[.migrate now], { s with phase := .serving localOrgId }, ?_, rfl, iff_of_true rfl rfl⟩
    rw [Machine.replay, hmigrate]
    rfl
  · rename_i hnew
    rw [if_neg hnew] at hmigrate
    cases himport : importSnapshot env importer write snapshot now localOrgId s.db with
    | error e =>
      rw [himport] at hmigrate
      refine ⟨[.migrate now], { s with phase := .down }, ?_, rfl, by simp⟩
      rw [Machine.replay, hmigrate]
      rfl
    | ok r =>
      obtain ⟨report, db⟩ := r
      rw [himport] at hmigrate
      cases removed with
      | true =>
        let after := recordLegacyImport s.legacyImports snapshot.sourceHash report
        refine ⟨[.migrate now, .record], ⟨db, after, .serving localOrgId⟩, ?_, rfl, iff_of_true rfl rfl⟩
        rw [Machine.replay, hmigrate]
        rfl
      | false =>
        refine ⟨[.migrate now, .stop], ⟨db, s.legacyImports, .down⟩, ?_, rfl, by simp⟩
        rw [Machine.replay, hmigrate]
        rfl

/-- The snapshot of the database of one organization. -/
def acmeSnapshot : Snapshot := ⟨"5f", acmeDatabase⟩

/-- A new installation, before its first start. -/
def newInstallation : Installation where
  db :=
    { organizations := ∅, documents := ∅, jobs := ∅, chunks := ∅, chunkEmbeddings := ∅, memories := ∅
      memorySources := ∅, memoryRelations := ∅, memoryEmbeddings := ∅, idsDrawn := 0, spaces := ∅, apiKeys := ∅ }
  legacyImports := ∅
  phase := .down

def acmeStarts : Machine Installation StartEvent := starts unaryEnv acmeImporter compactJson.write acmeSnapshot

def importedOne : Phase := .imported "" ⟨1, 0, 0, 0, 0, 0, 0, 0⟩

def acmeTables : LegacyTables :=
  [("organization", [("id", .string "acme"), ("slug", .string "café"), ("created_at", .string "2024")])]

theorem acme_exported : (exportDatabase acmeSnapshot.database).outcome = .ok () ∧
    exportedRows acmeSnapshot.database = some acmeTables ∧ rereadTables id acmeTables = acmeTables := by
  decide +kernel

theorem acme_read : readLines acmeImporter 1 (exportLines compactJson.write acmeSnapshot) ([], false) =
    .ok (acmeTables, true) := by
  obtain ⟨hok, hrows, hsame⟩ := acme_exported
  obtain ⟨rows, hexported, hread⟩ := readLines_exportFile acme_legible hok
  obtain rfl := Option.some_inj.mp (hexported.symm.trans hrows)
  rw [hsame] at hread
  exact hread

theorem acme_migrate {r : LegacyImportReport × LegacyDatabase} (hphase : s.phase = .opened "")
    (hnew : ¬ hasLegacyImport s.legacyImports acmeSnapshot.sourceHash)
    (himport : importLegacyTables unaryEnv acmeImporter now "" acmeTables s.db = .ok r) :
    acmeStarts.step s (.migrate now) = some { s with db := r.2, phase := .imported "" r.1 } := by
  have hsnapshot : importSnapshot unaryEnv acmeImporter compactJson.write acmeSnapshot now "" s.db = .ok r := by
    rw [importSnapshot, acme_exported.1, importLegacyExport_eq acme_read, himport]
    rfl
  rw [acmeStarts, step_migrate hphase, if_neg hnew, hsnapshot]

end Startup
