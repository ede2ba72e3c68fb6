-- SUMMARY: The identity of the local organization: who holds the local slug, and when an import takes it away.
import Supermemory.Storage.CallEffects
import Supermemory.Storage.ImportSteps
import Supermemory.Storage.System

/-!
# The identity of the local organization

A `Storage` keeps the identifier of the local organization that it found when it was
opened. Opening the database later finds the organization that has the local slug then.
No call gives the slug to another organization. An import may do so.
-/

namespace Storage

variable {env : Env} {importer : Importer} {now : Time} {db db' : Database}

-- ---------------------------------------------------------------------------
-- Organizations under calls
-- ---------------------------------------------------------------------------

theorem insertJob_organizations {documentId : String} {kind : JobKind} {revision : Nat}
    (h : db.insertJob env now documentId kind revision = .ok db') : db'.organizations = db.organizations := by
  obtain ⟨_, _, _, rfl⟩ := insertJob_ok h
  rfl

theorem enqueue_organizations {id : String} {enqueued : Bool}
    (h : enqueueUnlessActive env now db id = .ok (enqueued, db')) : db'.organizations = db.organizations := by
  rcases enqueueUnlessActive_ok h with ⟨_, rfl⟩ | ⟨_, _, _, _, hinsert⟩
  · rfl
  · exact insertJob_organizations hinsert

theorem upsertDocument_organizations {orgId : String} {input : UpsertDocument} {result : UpsertResult}
    (h : upsertDocumentFor env now orgId input db = .ok (result, db')) :
    db'.organizations = db.organizations := by
  obtain ⟨_, _, ⟨existing, _, happly⟩ | hnew⟩ := upsertDocumentFor_ok h
  · rcases applyExisting_ok happly with rfl | ⟨_, rfl⟩ | ⟨_, hrequeue⟩
    · rfl
    · rfl
    · obtain ⟨_, dbu, _, hupdate, henqueue⟩ := requeue_ok hrequeue
      obtain rfl := updateFull_ok hupdate
      exact (enqueue_organizations henqueue).trans rfl
  · obtain ⟨document, documents, _, _, _, _, _, henqueue⟩ := insertNew_ok hnew
    exact (enqueue_organizations henqueue).trans rfl

theorem insertChunk_organizations {documentId content stableId : String} {ordinal chunkId : Nat}
    (h : insertChunk db documentId ordinal content stableId = .ok (chunkId, db')) :
    db'.organizations = db.organizations := by
  unfold insertChunk at h
  simp only at h
  split at h
  · cases h
  · split at h
    · cases h
    · cases h
      rfl

theorem insertEmbeddedChunk_organizations {documentId stableId : String} {embedding : Option (String × Nat)}
    {ordinal : Nat} {chunk : EmbeddedChunk}
    (h : insertEmbeddedChunk documentId embedding ordinal chunk stableId db = .ok db') :
    db'.organizations = db.organizations := by
  unfold insertEmbeddedChunk at h
  split at h
  · cases h
  · rename_i hinsert
    have hchunk := insertChunk_organizations hinsert
    split at h
    · cases h
      exact hchunk
    · obtain ⟨_, rfl⟩ := insertChunkEmbedding_ok h
      exact hchunk

theorem insertChunks_organizations {documentId : String} {embedding : Option (String × Nat)}
    {existing : List ((Nat × String) × String)} {ordinal : Nat} {chunks : List EmbeddedChunk}
    (h : insertChunks env documentId embedding existing ordinal chunks db = .ok db') :
    db'.organizations = db.organizations := by
  induction chunks generalizing ordinal db with
  | nil =>
    cases h
    rfl
  | cons chunk rest ih =>
    obtain ⟨_, _, _, _, hinsert, hloop⟩ := insertChunks_cons h
    have hchunk := insertEmbeddedChunk_organizations hinsert
    exact (ih hloop).trans hchunk

theorem publishJob_organizations {job : ClaimedJob} {chunks : List EmbeddedChunk}
    {embedding : Option (String × Nat)} {schedule : Bool}
    (h : publishJob env now job chunks embedding schedule db = .ok db') :
    db'.organizations = db.organizations := by
  obtain ⟨_, dbc, hchunks, hfinish⟩ := publishJob_inserts h
  have hinserted : dbc.organizations = db.organizations := (insertChunks_organizations hchunks).trans rfl
  cases schedule with
  | false =>
    obtain rfl : db' = _ := hfinish
    exact hinserted
  | true =>
    obtain ⟨_, hinsert, rfl⟩ := hfinish
    exact (insertJob_organizations hinsert).trans hinserted

theorem linkParents_organizations {childId : String} {parents : List ResolvedParent} :
    (parents.foldl (linkParent now childId) db).organizations = db.organizations := by
  induction parents generalizing db with
  | nil => rfl
  | cons parent rest ih =>
    rw [List.foldl_cons, ih]
    unfold linkParent addRelation
    simp only
    split <;> split <;> rfl

theorem reconcileProposals_organizations {batch : Batch} {proposals : List MemoryProposal}
    {s s' : Reconciliation} (h : reconcileProposals env now batch proposals s = .ok s') :
    s'.db.organizations = s.db.organizations := by
  induction proposals generalizing s with
  | nil =>
    cases h
    rfl
  | cons proposal rest ih =>
    rw [reconcileProposals] at h
    split at h
    · cases h
    · rename_i t hone
      refine (ih h).trans ?_
      rcases reconcileProposal_ok hone with ⟨id, _, rfl⟩ | ⟨parents, id, hcreates⟩
      · rfl
      · obtain ⟨_, _, _, _, _, hdb⟩ := hcreates.database
        rw [hdb]
        exact linkParents_organizations

theorem reconcile_organizations {batch : Batch} {expectedRevision : Option Nat}
    {completionJobId : Option String} {proposals : List MemoryProposal} {records : List MemoryRecord}
    (h : reconcileMemoriesFor env now batch expectedRevision completionJobId proposals db =
      .ok (records, db')) : db'.organizations = db.organizations := by
  obtain ⟨_, _, _, _, t, hloop, _, hfinish⟩ := reconcileMemoriesFor_ok h
  have hproposals : t.db.organizations = db.organizations := reconcileProposals_organizations hloop
  rcases hfinish with ⟨_, rfl⟩ | ⟨_, _, hfinish⟩
  · exact hproposals
  · rw [(finishReconciliation_ok hfinish).2]
    exact hproposals

/-- Only opening the database changes its organizations. -/
theorem Call.run_organizations {call : Call} (hopen : call ≠ .openStorage) :
    (call.run env now db).2.organizations = db.organizations := by
  have heffect := call.effect env now db
  generalize call.run env now db = r at heffect ⊢
  cases heffect with
  | failed | nothing | failedJob | deletedEmpty | deleted => rfl
  | upserted hr => exact upsertDocument_organizations hr
  | claimed hr =>
    obtain ⟨_, _, _, _, _, _, _, _, _, rfl⟩ := claimJob_some hr
    rfl
  | staged hr =>
    obtain ⟨_, _, _, _, rfl⟩ := markJobStage_ok hr
    rfl
  | published _ _ _ hr => exact publishJob_organizations hr
  | claimedMemory hr =>
    obtain ⟨_, _, _, _, _, _, _, _, _, _, _, rfl⟩ := claimMemoryJob_some hr
    rfl
  | @cached job result =>
    rcases cacheMemoryExtraction_cases job result db with ⟨_, heq⟩ | ⟨_, heq⟩
    · rw [heq]
    · rw [heq]
      rfl
  | completedMemory hr =>
    rcases completeMemoryJob_ok hr with ⟨_, rfl⟩ | ⟨_, _, rfl⟩
    · rfl
    · rfl
  | retried hr =>
    rcases retryMemoryJob_ok hr with ⟨_, rfl⟩ | ⟨_, _, _, ⟨_, rfl⟩ | rfl⟩
    · rfl
    · rfl
    · rfl
  | reconciled hr => exact reconcile_organizations hr
  | forgot hr =>
    obtain ⟨_, _, _, _, rfl⟩ := forgetMemoryFor_ok hr
    rfl
  | opened => exact absurd rfl hopen

-- ---------------------------------------------------------------------------
-- The local organization
-- ---------------------------------------------------------------------------

/-- The organization has the local slug. -/
def HoldsLocalSlug (db : Database) (id : String) : Prop :=
  ∃ o ∈ db.organizations, o.id = id ∧ o.slug = localSlug

/-- The organization is stored, and at most one organization has the local slug. -/
structure Seeded (db : Database) (id : String) : Prop where
  row : ∃ o ∈ db.organizations, o.id = id
  unique : ∀ o ∈ db.organizations, ∀ p ∈ db.organizations, o.slug = localSlug → p.slug = localSlug → o = p

/-- Opening the database, at any time, selects the organization as the local one. -/
def OpensAs (env : Env) (db : Database) (id : String) : Prop :=
  ∀ now, (openStorage env now db).map (·.1) = .ok id

theorem openStorage_id : (openStorage env now db).map (·.1) = (seedOrganization env db).map (·.1) := by
  unfold openStorage
  cases seedOrganization env db <;> rfl

/-- Opening the database finds the organization with the local slug, or inserts it. -/
theorem openStorage_organizations {orgId : String} (h : openStorage env now db = .ok (orgId, db')) :
    (HoldsLocalSlug db orgId ∧ db'.organizations = db.organizations) ∨
    ((∀ o ∈ db.organizations, o.slug ≠ localSlug) ∧
      db.organizations.insert ⟨orgId, localSlug⟩ = some db'.organizations) := by
  unfold openStorage at h
  split at h
  · cases h
  · rename_i id dbs hseed
    cases h
    unfold seedOrganization at hseed
    split at hseed
    · rename_i o hfind
      cases hseed
      exact .inl ⟨⟨o, List.mem_of_find?_eq_some hfind, rfl, by simpa using List.find?_some hfind⟩, rfl⟩
    · rename_i hfind
      simp only at hseed
      split at hseed
      · cases hseed
      · rename_i organizations hinsert
        cases hseed
        exact .inr ⟨fun o ho => by simpa using List.find?_eq_none.mp hfind o ho, hinsert⟩

namespace Seeded

variable {id : String}

theorem of_organizations (h : Seeded db id) (heq : db'.organizations = db.organizations) : Seeded db' id :=
  ⟨heq ▸ h.row, heq ▸ h.unique⟩

theorem opensAs_iff (h : Seeded db id) : OpensAs env db id ↔ HoldsLocalSlug db id := by
  have hselects : OpensAs env db id ↔ (seedOrganization env db).map (·.1) = .ok id := by
    simp only [OpensAs, openStorage_id]
    exact ⟨fun h => h 0, fun h _ => h⟩
  rw [hselects]
  unfold seedOrganization
  cases hfind : db.organizations.rows.find? fun o => o.slug = localSlug with
  | some o =>
    have ho : o ∈ db.organizations := List.mem_of_find?_eq_some hfind
    have hslug : o.slug = localSlug := by simpa using List.find?_some hfind
    constructor
    · intro hid
      cases hid
      exact ⟨o, ho, rfl, hslug⟩
    · rintro ⟨p, hp, rfl, hpslug⟩
      rw [h.unique p hp o ho hpslug hslug]
      rfl
  | none =>
    have hnone : ¬ HoldsLocalSlug db id := by
      rintro ⟨p, hp, _, hpslug⟩
      simpa [hpslug] using List.find?_eq_none.mp hfind p hp
    refine ⟨fun hid => absurd hid ?_, fun hholds => absurd hholds hnone⟩
    -- the organization that is inserted is a new one
    dsimp only
    split
    · exact fun hid => by cases hid
    · rename_i organizations hinsert
      intro hid
      obtain ⟨o, ho, hoid⟩ := h.row
      apply Table.insert_fresh hinsert o ho
      rw [hoid]
      injection hid with hid
      exact hid.symm

/-- An organization is added, and its slug is not taken. -/
theorem insert {o : Organization} (h : Seeded db id)
    (hslug : o.slug = localSlug → ∀ p ∈ db.organizations, p.slug ≠ localSlug)
    (hinsert : db.organizations.insert o = some db'.organizations) :
    Seeded db' id ∧ (HoldsLocalSlug db' id ↔ HoldsLocalSlug db id) := by
  obtain ⟨row, hrow, hid⟩ := h.row
  have hmem {p : Organization} : p ∈ db'.organizations ↔ p ∈ db.organizations ∨ p = o :=
    Table.mem_insert hinsert
  refine ⟨⟨⟨row, hmem.mpr (.inl hrow), hid⟩, ?_⟩, ?_⟩
  · intro p hp q hq hpslug hqslug
    rcases hmem.mp hp with hp | rfl
    · rcases hmem.mp hq with hq | rfl
      · exact h.unique p hp q hq hpslug hqslug
      · exact absurd hpslug (hslug hqslug p hp)
    · rcases hmem.mp hq with hq | rfl
      · exact absurd hqslug (hslug hpslug q hq)
      · rfl
  · constructor
    · rintro ⟨p, hp, hpid, hpslug⟩
      rcases hmem.mp hp with hp | rfl
      · exact ⟨p, hp, hpid, hpslug⟩
      · exact absurd (hid.trans hpid.symm) (Table.insert_fresh hinsert row hrow)
    · rintro ⟨p, hp, hholds⟩
      exact ⟨p, hmem.mpr (.inl hp), hholds⟩

theorem openStorage {orgId : String} (h : Seeded db id) (hopen : openStorage env now db = .ok (orgId, db')) :
    Seeded db' id ∧ (HoldsLocalSlug db' id ↔ HoldsLocalSlug db id) := by
  rcases openStorage_organizations hopen with ⟨_, heq⟩ | ⟨hnone, hinsert⟩
  · refine ⟨h.of_organizations heq, ?_⟩
    simp only [HoldsLocalSlug, heq]
  · exact h.insert (fun _ => hnone) hinsert

theorem call (env : Env) (now : Time) (call : Call) (h : Seeded db id) :
    Seeded (call.run env now db).2 id ∧ (HoldsLocalSlug (call.run env now db).2 id ↔ HoldsLocalSlug db id) := by
  by_cases hopen : call = .openStorage
  · subst hopen
    simp only [Call.run]
    cases hr : Storage.openStorage env now db with
    | error e => exact ⟨h, Iff.rfl⟩
    | ok r => exact h.openStorage hr
  · have heq : (call.run env now db).2.organizations = db.organizations := Call.run_organizations hopen
    refine ⟨h.of_organizations heq, ?_⟩
    simp only [HoldsLocalSlug, heq]

/-- The database after it was opened. -/
theorem of_open {orgId : String}
    (hunique : ∀ o ∈ db.organizations, ∀ p ∈ db.organizations, o.slug = p.slug → o = p)
    (hopen : Storage.openStorage env now db = .ok (orgId, db')) : Seeded db' orgId ∧ HoldsLocalSlug db' orgId := by
  rcases openStorage_organizations hopen with ⟨⟨o, ho, hid, hslug⟩, heq⟩ | ⟨hnone, hinsert⟩
  · refine ⟨⟨⟨o, heq ▸ ho, hid⟩, ?_⟩, o, heq ▸ ho, hid, hslug⟩
    rw [heq]
    exact fun p hp q hq hpslug hqslug => hunique p hp q hq (hpslug.trans hqslug.symm)
  · have hnew : ⟨orgId, localSlug⟩ ∈ db'.organizations := (Table.mem_insert hinsert).mpr (.inr rfl)
    refine ⟨⟨⟨_, hnew, rfl⟩, ?_⟩, _, hnew, rfl, rfl⟩
    have hlocal {p : Organization} (hp : p ∈ db'.organizations) (hslug : p.slug = localSlug) :
        p = ⟨orgId, localSlug⟩ := by
      rcases (Table.mem_insert hinsert).mp hp with hp | rfl
      · exact absurd hslug (hnone p hp)
      · rfl
    exact fun p hp q hq hpslug hqslug => (hlocal hp hpslug).trans (hlocal hq hqslug).symm

end Seeded

-- ---------------------------------------------------------------------------
-- Imported organizations
-- ---------------------------------------------------------------------------

/-- The exported organization has the local slug, and it is not the local organization. -/
def ClaimsLocalSlug (localOrgId : String) (row : Object) : Prop :=
  optionalField row "slug" = some localSlug ∧ optionalField row "id" ≠ some localOrgId

instance (localOrgId : String) : DecidablePred (ClaimsLocalSlug localOrgId) :=
  fun _ => inferInstanceAs (Decidable (_ ∧ _))

theorem markedSlug_ne_localSlug {o : Organization} : markedSlug o ≠ localSlug := by
  intro h
  have hmark : '-' ∈ localSlug.toList := by
    rw [← h]
    simp [markedSlug]
  exact absurd hmark (by decide)

section Organizations

variable {s s' : Import} {ldb ldb' : LegacyDatabase} {localOrgId orgId : String} {row : Object}

/-- The local organization gives up its slug when an imported one claims it. -/
theorem Seeded.rename {id slug : String} (h : Seeded ldb.toDatabase orgId)
    (hr : renameOrganization localOrgId id slug ldb = .ok ldb') :
    Seeded ldb'.toDatabase orgId ∧
    (HoldsLocalSlug ldb'.toDatabase orgId ↔ HoldsLocalSlug ldb.toDatabase orgId ∧
      ¬ (localOrgId = orgId ∧ slug = localSlug ∧ id ≠ orgId ∧ ∀ d ∈ ldb.documents, d.orgId ≠ orgId)) := by
  have hmem {o : Organization} := mem_renameOrganization (o := o) hr
  constructor
  · obtain ⟨row, hrow, hid⟩ := h.row
    refine ⟨⟨_, hmem.mpr ⟨row, hrow, rfl⟩, ?_⟩, ?_⟩
    · split <;> exact hid
    · intro o ho p hp hoslug hpslug
      obtain ⟨r, hr, rfl⟩ := hmem.mp ho
      obtain ⟨q, hq, rfl⟩ := hmem.mp hp
      split at hoslug
      · exact absurd hoslug markedSlug_ne_localSlug
      · split at hpslug
        · exact absurd hpslug markedSlug_ne_localSlug
        · rw [h.unique r hr q hq hoslug hpslug]
  · constructor
    · rintro ⟨o, ho, hid, hslug⟩
      obtain ⟨r, hr, rfl⟩ := hmem.mp ho
      split at hslug
      · exact absurd hslug markedSlug_ne_localSlug
      · rename_i hkeeps
        rw [if_neg hkeeps] at hid
        refine ⟨⟨r, hr, hid, hslug⟩, ?_⟩
        rintro ⟨rfl, rfl, hother, hempty⟩
        exact hkeeps ⟨hslug, hid ▸ Ne.symm hother, hid, hid ▸ hempty⟩
    · rintro ⟨⟨o, ho, rfl, hslug⟩, hkeeps⟩
      have hyields : ¬ Yields ldb.toDatabase localOrgId id slug o := by
        rintro ⟨rfl, hother, rfl, hempty⟩
        exact hkeeps ⟨rfl, hslug, Ne.symm hother, hempty⟩
      exact ⟨o, hmem.mpr ⟨o, ho, (if_neg hyields).symm⟩, rfl, hslug⟩

/-- The import of one organization, by a `Storage` of the same organization or of another one. -/
theorem Seeded.importOrganization (h : Seeded s.db.toDatabase orgId)
    (himport : importOrganization localOrgId s row = .ok s') :
    Seeded s'.db.toDatabase orgId ∧ s'.db.documents = s.db.documents ∧
    (HoldsLocalSlug s'.db.toDatabase orgId ↔ HoldsLocalSlug s.db.toDatabase orgId ∧
      ¬ (localOrgId = orgId ∧ ClaimsLocalSlug orgId row ∧ ∀ d ∈ s.db.documents, d.orgId ≠ orgId)) := by
  simp only [Storage.importOrganization, Loop.bind_ok] at himport
  obtain ⟨id, hid, slug, hslug, dbr, hrename, _, _, himport⟩ := himport
  obtain ⟨hseeded, hholds⟩ := h.rename hrename
  have hdocuments : dbr.documents = s.db.documents := by
    rw [renameOrganization_ok hrename]
  have hclaims : ClaimsLocalSlug orgId row ↔ slug = localSlug ∧ id ≠ orgId := by
    simp [ClaimsLocalSlug, field_ok hid, field_ok hslug]
  rw [hclaims]
  simp only [and_assoc] at hholds ⊢
  split at himport
  · cases himport
    exact ⟨hseeded, hdocuments, hholds⟩
  · rename_i dbi hinsert
    cases himport
    obtain ⟨hfree, organizations, hinserted, rfl⟩ := insertOrganization_some hinsert
    have hadded : Seeded { dbr.toDatabase with organizations } orgId ∧
        (HoldsLocalSlug { dbr.toDatabase with organizations } orgId ↔ HoldsLocalSlug dbr.toDatabase orgId) :=
      hseeded.insert (fun hlocal p hp => hlocal ▸ hfree p hp) hinserted
    exact ⟨hadded.1, hdocuments, hadded.2.trans hholds⟩

theorem Seeded.importOrganizations {rows : List Object} (h : Seeded s.db.toDatabase orgId)
    (himport : rows.foldlM (Storage.importOrganization localOrgId) s = .ok s') :
    Seeded s'.db.toDatabase orgId ∧
    (HoldsLocalSlug s'.db.toDatabase orgId ↔ HoldsLocalSlug s.db.toDatabase orgId ∧
      ¬ (localOrgId = orgId ∧ (∃ row ∈ rows, ClaimsLocalSlug orgId row) ∧
        ∀ d ∈ s.db.documents, d.orgId ≠ orgId)) := by
  induction rows generalizing s with
  | nil =>
    cases Loop.foldlM_nil_ok.mp himport
    exact ⟨h, by simp⟩
  | cons row rest ih =>
    obtain ⟨t, hfirst, hrest⟩ := Loop.foldlM_cons_ok.mp himport
    obtain ⟨hseeded, hdocuments, hholds⟩ := h.importOrganization hfirst
    obtain ⟨hseeded', hholds'⟩ := ih hseeded hrest
    refine ⟨hseeded', hholds'.trans ?_⟩
    rw [hholds, hdocuments, List.exists_mem_cons_iff]
    constructor
    · rintro ⟨⟨hlocal, hfirst⟩, hlater⟩
      refine ⟨hlocal, ?_⟩
      rintro ⟨hown, hclaims | hclaims, hempty⟩
      · exact hfirst ⟨hown, hclaims, hempty⟩
      · exact hlater ⟨hown, hclaims, hempty⟩
    · rintro ⟨hlocal, hnone⟩
      refine ⟨⟨hlocal, ?_⟩, ?_⟩
      · rintro ⟨hown, hclaims, hempty⟩
        exact hnone ⟨hown, .inl hclaims, hempty⟩
      · rintro ⟨hown, hclaims, hempty⟩
        exact hnone ⟨hown, .inr hclaims, hempty⟩

/-- An import takes the local slug away from the local organization when it is the import of a `Storage`
    of that organization, an exported organization claims the slug, and the organization has no documents. -/
theorem Seeded.importLegacyTables {tables : LegacyTables} {report : LegacyImportReport}
    (h : Seeded ldb.toDatabase orgId)
    (himport : Storage.importLegacyTables env importer now localOrgId tables ldb = .ok (report, ldb')) :
    Seeded ldb'.toDatabase orgId ∧
    (HoldsLocalSlug ldb'.toDatabase orgId ↔ HoldsLocalSlug ldb.toDatabase orgId ∧
      ¬ (localOrgId = orgId ∧ (∃ row ∈ tableRows tables "organization", ClaimsLocalSlug orgId row) ∧
        ∀ d ∈ ldb.documents, d.orgId ≠ orgId)) := by
  obtain ⟨s₁, _, _, _, _, _, _, s₈, horganizations, _, _, _, _, _, _, _, _, rfl, hkept, _⟩ := importLegacyTables_ok himport
  obtain ⟨hseeded, hholds⟩ := Seeded.importOrganizations h horganizations
  refine ⟨hseeded.of_organizations hkept, ?_⟩
  rw [← hholds]
  simp only [HoldsLocalSlug, hkept]

end Organizations

-- ---------------------------------------------------------------------------
-- The session of a storage
-- ---------------------------------------------------------------------------

/-- A `Storage`: the database it is connected to, and the local organization it found when it was opened. -/
structure Opened where
  db : LegacyDatabase
  localOrgId : String
  deriving DecidableEq

/-- What happens to the database while it is open: a call by anyone, or an import that succeeds, by a
    `Storage` of some local organization. -/
inductive OpenedEvent where
  | call (call : Call)
  | importLegacyExport (localOrgId : String) (lines : List (Option String))
  deriving DecidableEq

/-- The database while a `Storage` is open on it. No two organizations had the same slug before. -/
def openings (env : Env) (importer : Importer) : Machine Opened (Time × OpenedEvent) where
  init s := ∃ now db, (∀ o ∈ db.organizations, ∀ p ∈ db.organizations, o.slug = p.slug → o = p) ∧
    openStorage env now db = .ok (s.localOrgId, s.db.toDatabase)
  step s event :=
    match event.2 with
    | .call call => some { s with db.toDatabase := (call.run env event.1 s.db.toDatabase).2 }
    | .importLegacyExport localOrgId lines =>
      match importLegacyExport env importer event.1 localOrgId lines s.db with
      | .error _ => none
      | .ok (_, db) => some { s with db }

def exportedOrganizations (importer : Importer) (lines : List (Option String)) : List Object :=
  match readLines importer 1 lines ([], false) with
  | .error _ => []
  | .ok (tables, _) => tableRows tables "organization"

/-- The import of an export with another organization under the local slug, by a `Storage` of the local
    organization, while that has no documents. -/
def Displaces (importer : Importer) (s : Opened) : OpenedEvent → Prop
  | .call _ => False
  | .importLegacyExport localOrgId lines => localOrgId = s.localOrgId ∧
      (∃ row ∈ exportedOrganizations importer lines, ClaimsLocalSlug s.localOrgId row) ∧
      ∀ d ∈ s.db.documents, d.orgId ≠ s.localOrgId

instance (importer : Importer) (s : Opened) : DecidablePred (Displaces importer s) := fun event => by
  cases event <;> unfold Displaces <;> infer_instance

section Session

variable {s s' : Opened} {event : Time × OpenedEvent}

theorem Seeded.step (h : Seeded s.db.toDatabase s.localOrgId) (hstep : (openings env importer).step s event = some s') :
    s'.localOrgId = s.localOrgId ∧ Seeded s'.db.toDatabase s'.localOrgId ∧
    (HoldsLocalSlug s'.db.toDatabase s'.localOrgId ↔
      HoldsLocalSlug s.db.toDatabase s.localOrgId ∧ ¬ Displaces importer s event.2) := by
  obtain ⟨now, call | ⟨localOrgId, lines⟩⟩ := event
  · cases hstep
    obtain ⟨hseeded, hholds⟩ := h.call env now call
    refine ⟨rfl, hseeded, hholds.trans ?_⟩
    simp [Displaces]
  · simp only [openings] at hstep
    split at hstep
    · cases hstep
    · rename_i report db himport
      cases hstep
      simp only [importLegacyExport, Loop.bind_ok] at himport
      obtain ⟨⟨tables, complete⟩, hread, himport⟩ := himport
      split at himport
      · obtain ⟨hseeded, hholds⟩ := h.importLegacyTables himport
        refine ⟨rfl, hseeded, hholds.trans ?_⟩
        simp only [Displaces, exportedOrganizations, hread]
      · cases himport

theorem Seeded.run {events : List (Time × OpenedEvent)} (h : Seeded s.db.toDatabase s.localOrgId)
    (hrun : (openings env importer).replay s events = some s') :
    Seeded s'.db.toDatabase s'.localOrgId ∧
    (HoldsLocalSlug s'.db.toDatabase s'.localOrgId ↔ HoldsLocalSlug s.db.toDatabase s.localOrgId ∧
      (openings env importer).occurrences (fun s event => Displaces importer s event.2) s events = 0) := by
  induction events generalizing s with
  | nil =>
    obtain rfl : s = s' := by simpa [Machine.replay] using hrun
    exact ⟨h, by simp [Machine.occurrences]⟩
  | cons event rest ih =>
    obtain ⟨t, hstep, hrest⟩ := Option.bind_eq_some_iff.mp hrun
    obtain ⟨_, hseeded, hholds⟩ := h.step hstep
    obtain ⟨hseeded', hholds'⟩ := ih hseeded hrest
    refine ⟨hseeded', hholds'.trans ?_⟩
    simp only [Machine.occurrences, hstep]
    rw [hholds, and_assoc]
    by_cases hdisplaces : Displaces importer s event.2
    · simp [hdisplaces]
    · simp [hdisplaces]

end Session

/-- Opening the database again selects the organization that the `Storage` keeps using, exactly when it was
    displaced by no import. -/
theorem local_identity_survives_import {s₀ s : Opened} {events : List (Time × OpenedEvent)}
    (hinit : (openings env importer).init s₀) (hrun : (openings env importer).replay s₀ events = some s) :
    OpensAs env s.db.toDatabase s.localOrgId ↔
      (openings env importer).occurrences (fun s event => Displaces importer s event.2) s₀ events = 0 := by
  obtain ⟨now, db, hunique, hopen⟩ := hinit
  obtain ⟨hseeded, hholds⟩ := Seeded.of_open hunique hopen
  obtain ⟨hseeded', hholds'⟩ := hseeded.run hrun
  rw [hseeded'.opensAs_iff, hholds']
  exact and_iff_right hholds

/-- A parser of two lines: the row of an organization under the local slug, and the end of an export. -/
def twoLines : Importer where
  fromStr line :=
    if line = "\x7b\"type\":\"row\",\"table\":\"organization\",\"row\":\x7b\"id\":\"acme\",\"slug\":\"local\",\"created_at\":\"2024\"\x7d\x7d" then
      some (.object [("type", .string "row"), ("table", .string "organization"),
        ("row", .object [("id", .string "acme"), ("slug", .string "local"), ("created_at", .string "2024")])])
    else if line = "\x7b\"type\":\"complete\"\x7d" then some (.object [("type", .string "complete")])
    else none
  toF32 _ := none
  digest _ := []

def twoLineExport : List (Option String) :=
  [some "\x7b\"type\":\"row\",\"table\":\"organization\",\"row\":\x7b\"id\":\"acme\",\"slug\":\"local\",\"created_at\":\"2024\"\x7d\x7d",
    some "\x7b\"type\":\"complete\"\x7d"]

/-- A `Storage` that was opened on an empty database. -/
def firstOpened : Opened where
  db :=
    { organizations := ⟨[⟨"", "local"⟩], by simp⟩
      documents := ∅, jobs := ∅, chunks := ∅, chunkEmbeddings := ∅, memories := ∅, memorySources := ∅
      memoryRelations := ∅, memoryEmbeddings := ∅, idsDrawn := 1, spaces := ∅, apiKeys := ∅ }
  localOrgId := ""

theorem firstOpened_init : (openings unaryEnv twoLines).init firstOpened := by
  refine ⟨0, emptySystem.db, fun o ho => absurd ho Table.not_mem_empty, ?_⟩
  decide +kernel

/-- The local organization has a document when the export is imported, and keeps the slug. -/
theorem local_identity_survives_import_document : ∃ s,
    (openings unaryEnv twoLines).replay firstOpened
      [(0, .call (.upsertDocument "" (upsertOf "a fact"))), (0, .importLegacyExport "" twoLineExport)] = some s ∧
    OpensAs unaryEnv s.db.toDatabase s.localOrgId := by
  obtain ⟨s, hs⟩ : ∃ s, (openings unaryEnv twoLines).replay firstOpened
      [(0, .call (.upsertDocument "" (upsertOf "a fact"))), (0, .importLegacyExport "" twoLineExport)] = some s :=
    Option.isSome_iff_exists.mp (by decide +kernel)
  exact ⟨s, hs, (local_identity_survives_import firstOpened_init hs).mpr (by decide +kernel)⟩

/-- The exported organization takes over the local slug. -/
theorem local_identity_lost : (openings unaryEnv twoLines).init firstOpened ∧ ∃ s,
    (openings unaryEnv twoLines).replay firstOpened [(0, .importLegacyExport "" twoLineExport)] = some s ∧
    (openStorage unaryEnv 0 s.db.toDatabase).map (·.1) = .ok "acme" ∧ s.localOrgId = "" ∧
    ¬ OpensAs unaryEnv s.db.toDatabase s.localOrgId := by
  have himported : ∃ s ∈ (openings unaryEnv twoLines).replay firstOpened [(0, .importLegacyExport "" twoLineExport)],
      (openStorage unaryEnv 0 s.db.toDatabase).map (·.1) = .ok "acme" ∧ s.localOrgId = "" := by
    decide +kernel
  obtain ⟨s, hs, hopens, hlocal⟩ := himported
  refine ⟨firstOpened_init, s, hs, hopens, hlocal, fun hsame => ?_⟩
  have hid := Except.ok.inj (hopens.symm.trans ((hsame 0).trans (congrArg Except.ok hlocal)))
  exact absurd hid (by decide)

end Storage
