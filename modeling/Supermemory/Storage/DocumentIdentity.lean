-- SUMMARY: Which document an upsert is about: custom identifiers never clash, identities never change, and a repeated upsert does nothing.
import Supermemory.Library.Loop
import Supermemory.Storage.Search
import Supermemory.Storage.StatusSteps

/-!
# Document identity

An upsert finds its document by custom identifier and tags, or by content. Only the first way
leads to a rewriting of the row, and what it writes there as identity is what it looked for.
-/

namespace Storage

variable {env : Env} {now : Time} {db db' : Database} {orgId hash : String} {input : UpsertDocument}
  {result : UpsertResult}

-- ---------------------------------------------------------------------------
-- Merging metadata
-- ---------------------------------------------------------------------------

/-- Inserting fields that are all there changes entries in place. -/
theorem merge_present {existing incoming : Object}
    (h : ∀ field ∈ incoming, ∃ entry ∈ existing, entry.1 = field.1) :
    mergeMetadata existing incoming = existing.map (Object.setFields incoming) := by
  induction incoming generalizing existing with
  | nil => exact (List.map_id existing).symm
  | cons field rest ih =>
    have hfirst : Object.insert existing field.1 field.2 = existing.map (Object.setField field) :=
      Object.insert_present (h field List.mem_cons_self)
    have hrest : mergeMetadata (existing.map (Object.setField field)) rest =
        (existing.map (Object.setField field)).map (Object.setFields rest) := by
      apply ih
      intro other hother
      obtain ⟨entry, hentry, hkey⟩ := h other (List.mem_cons_of_mem _ hother)
      exact ⟨_, List.mem_map_of_mem hentry, (Object.setField_key field entry).trans hkey⟩
    calc mergeMetadata existing (field :: rest)
        = mergeMetadata (Object.insert existing field.1 field.2) rest := rfl
      _ = (existing.map (Object.setField field)).map (Object.setFields rest) := by rw [hfirst, hrest]
      _ = existing.map (Object.setFields (field :: rest)) := by rw [List.map_map]; rfl

theorem merge_append (existing incoming : Object) (field : String × Value) :
    mergeMetadata existing (incoming ++ [field]) = (mergeMetadata existing incoming).insert field.1 field.2 := by
  simp [mergeMetadata]

/-- After a merge every incoming key is there, and every entry is what the insertions make of it. -/
theorem mem_mergeMetadata (existing incoming : Object) :
    (∀ field ∈ incoming, ∃ entry ∈ mergeMetadata existing incoming, entry.1 = field.1) ∧
    ∀ entry ∈ mergeMetadata existing incoming, Object.setFields incoming entry = entry := by
  induction incoming using List.reverseRecOn with
  | nil =>
    refine ⟨?_, fun _ _ => rfl⟩
    intro field hfield
    exact absurd hfield List.not_mem_nil
  | append_singleton incoming field ih =>
    obtain ⟨hkeys, hfixed⟩ := ih
    rw [merge_append]
    constructor
    · intro other hother
      rcases List.mem_append.mp hother with hold | hnew
      · obtain ⟨entry, hentry, hkey⟩ := hkeys other hold
        obtain ⟨kept, hkept, hsame⟩ := Object.insert_keeps_key field hentry
        exact ⟨kept, hkept, hsame.trans hkey⟩
      · obtain rfl := List.mem_singleton.mp hnew
        exact Object.mem_insert_self _ _
    · intro entry hentry
      rw [Object.setFields_append]
      rcases Object.mem_insert hentry with rfl | ⟨hold, hother⟩
      · unfold Object.setField
        rw [if_pos (Object.setFields_key incoming entry)]
      · rw [hfixed entry hold]
        exact if_neg hother

/-- Merging the same fields again changes nothing. -/
theorem mergeMetadata_idem (existing incoming : Object) :
    mergeMetadata (mergeMetadata existing incoming) incoming = mergeMetadata existing incoming := by
  obtain ⟨hkeys, hfixed⟩ := mem_mergeMetadata existing incoming
  rw [merge_present hkeys]
  conv_rhs => rw [← List.map_id (mergeMetadata existing incoming)]
  exact List.map_congr_left hfixed

-- ---------------------------------------------------------------------------
-- Identities
-- ---------------------------------------------------------------------------

/-- The same document, with the same custom identifier and tags, in the same organization. -/
def SameIdentity (d d' : Document) : Prop :=
  d'.id = d.id ∧ d'.orgId = d.orgId ∧ d'.customId = d.customId ∧ d'.containerTags = d.containerTags

theorem SameIdentity.refl (d : Document) : SameIdentity d d := ⟨rfl, rfl, rfl, rfl⟩

theorem SameIdentity.trans {d d' d'' : Document} (h : SameIdentity d d') (h' : SameIdentity d' d'') :
    SameIdentity d d'' :=
  ⟨h'.1.trans h.1, h'.2.1.trans h.2.1, h'.2.2.1.trans h.2.2.1, h'.2.2.2.trans h.2.2.2⟩

/-- The document has a custom identifier in an organization, with these tags. -/
def Named (orgId customId : String) (tags : List String) (d : Document) : Prop :=
  d.orgId = orgId ∧ d.customId = some customId ∧ d.containerTags = tags

theorem SameIdentity.named_iff {d d' : Document} (h : SameIdentity d d') {customId : String} {tags : List String} :
    Named orgId customId tags d' ↔ Named orgId customId tags d := by
  obtain ⟨_, horg, hcustom, htags⟩ := h
  simp only [Named, horg, hcustom, htags]

/-- No two documents of an organization have the same custom identifier and the same tags. -/
def UniqueNames (db : Database) : Prop :=
  ∀ d ∈ db.documents, ∀ d' ∈ db.documents, ∀ orgId customId tags,
    Named orgId customId tags d → Named orgId customId tags d' → d = d'

/-- Every document is one that was there before, with the identity that it had. -/
def Inherits (db db' : Database) : Prop := ∀ d' ∈ db'.documents, ∃ d ∈ db.documents, SameIdentity d d'

/-- An upsert keeps every document with its identity, and adds at most one, whose name is free. -/
structure Identifies (db db' : Database) : Prop where
  kept : ∀ d ∈ db.documents, ∃ d' ∈ db'.documents, SameIdentity d d'
  origin : Inherits db db' ∨ ∃ new, (∀ d' ∈ db'.documents, (∃ d ∈ db.documents, SameIdentity d d') ∨ d' = new) ∧
    ∀ d ∈ db.documents, ∀ orgId customId tags, Named orgId customId tags d → ¬ Named orgId customId tags new

theorem UniqueNames.inherits (h : UniqueNames db) (hstep : Inherits db db') : UniqueNames db' := by
  intro d' hd' e' he' orgId customId tags hd'name he'name
  obtain ⟨d, hd, hsame⟩ := hstep d' hd'
  obtain ⟨e, he, hsame'⟩ := hstep e' he'
  have heq := h d hd e he orgId customId tags (hsame.named_iff.mp hd'name) (hsame'.named_iff.mp he'name)
  exact Table.eq_of_key hd' he' (hsame.1.trans ((congrArg Document.id heq).trans hsame'.1.symm))

theorem UniqueNames.identifies (h : UniqueNames db) (hstep : Identifies db db') : UniqueNames db' := by
  rcases hstep.origin with horigin | ⟨new, horigin, hfree⟩
  · exact h.inherits horigin
  · intro d' hd' e' he' orgId customId tags hd'name he'name
    rcases horigin d' hd' with ⟨d, hd, hsame⟩ | rfl
    · rcases horigin e' he' with ⟨e, he, hsame'⟩ | rfl
      · have heq := h d hd e he orgId customId tags (hsame.named_iff.mp hd'name) (hsame'.named_iff.mp he'name)
        exact Table.eq_of_key hd' he' (hsame.1.trans ((congrArg Document.id heq).trans hsame'.1.symm))
      · exact absurd he'name (hfree d hd orgId customId tags (hsame.named_iff.mp hd'name))
    · rcases horigin e' he' with ⟨e, he, hsame'⟩ | rfl
      · exact absurd hd'name (hfree e he orgId customId tags (hsame'.named_iff.mp he'name))
      · rfl

theorem Identifies.refl (db : Database) : Identifies db db where
  kept d hd := ⟨d, hd, .refl d⟩
  origin := .inl fun d hd => ⟨d, hd, .refl d⟩

/-- Rows are rewritten in place under the identity that they have. -/
theorem Identifies.update {p : Document → Prop} [DecidablePred p] {f : Document → Document}
    (hrows : db'.documents.rows = db.documents.rows.map fun d => if p d then f d else d)
    (hf : ∀ d ∈ db.documents, p d → SameIdentity d (f d)) : Identifies db db' := by
  have hsame (d : Document) (hd : d ∈ db.documents) : SameIdentity d (if p d then f d else d) := by
    split
    · exact hf d hd ‹_›
    · exact .refl d
  have hmem {d' : Document} : d' ∈ db'.documents ↔ ∃ d ∈ db.documents, (if p d then f d else d) = d' := by
    rw [← Table.mem_rows, hrows]
    exact List.mem_map
  constructor
  · exact fun d hd => ⟨_, hmem.mpr ⟨d, hd, rfl⟩, hsame d hd⟩
  · refine .inl fun d' hd' => ?_
    obtain ⟨d, hd, rfl⟩ := hmem.mp hd'
    exact ⟨d, hd, hsame d hd⟩

-- ---------------------------------------------------------------------------
-- Finding the document
-- ---------------------------------------------------------------------------

theorem findCustom_some {customId : String} {tags : List String} {d : Document}
    (h : findCustom db orgId customId tags = some d) : d ∈ db.documents ∧ Named orgId customId tags d :=
  ⟨List.mem_of_find?_eq_some h, by simpa [Named] using List.find?_some h⟩

theorem findCustom_none {customId : String} {tags : List String} (h : findCustom db orgId customId tags = none) :
    ∀ d ∈ db.documents, ¬ Named orgId customId tags d := by
  intro d hd hname
  have hother := List.find?_eq_none.mp h d hd
  exact hother (by simpa [Named] using hname)

/-- The document with a name is the one that is found. -/
theorem UniqueNames.findCustom (h : UniqueNames db) {customId : String} {tags : List String} {d : Document}
    (hd : d ∈ db.documents) (hname : Named orgId customId tags d) :
    Storage.findCustom db orgId customId tags = some d := by
  cases hfind : Storage.findCustom db orgId customId tags with
  | none => exact absurd hname (findCustom_none hfind d hd)
  | some e =>
    obtain ⟨he, hename⟩ := findCustom_some hfind
    rw [h e he d hd orgId customId tags hename hname]

/-- A document that is found by its content is done, and nothing of it is to be changed. -/
theorem findDuplicate_some {metadata : Object} {tags : List String} {d : Document}
    (h : findDuplicate db orgId hash metadata tags = some d) :
    d ∈ db.documents ∧ d.status = .done ∧ d.contentHash = hash ∧ metadataEquivalent d.metadata metadata := by
  have hguard : (d.orgId = orgId ∧ d.contentHash = hash ∧ d.status = .done) ∧
      normalizedTags d.containerTags = normalizedTags tags ∧ metadataEquivalent d.metadata metadata := by
    simpa using List.find?_some h
  exact ⟨List.mem_of_find?_eq_some h, hguard.1.2.2, hguard.1.2.1, hguard.2.2⟩

-- ---------------------------------------------------------------------------
-- What an upsert does
-- ---------------------------------------------------------------------------

/-- An upsert has nothing to do for the document: it is on its way, or it is up to date. -/
def UpToDate (db : Database) (existing : Document) (input : UpsertDocument) (hash : String) : Prop :=
  hasActiveDocumentJob db existing.id ∨ existing.status ≠ .failed ∧ existing.contentHash = hash ∧
    (metadataEquivalent existing.metadata input.metadata ∨ existing.status ≠ .indexing ∧
      setMetadata db existing.id (mergeMetadata existing.metadata input.metadata) = db)

theorem applyExisting_settled {existing : Document} (h : UpToDate db existing input hash) :
    applyExisting env now db existing input hash = .ok (⟨existing.id, existing.status, false⟩, db) := by
  unfold applyExisting
  simp only
  by_cases hactive : hasActiveDocumentJob db existing.id
  · rw [if_pos hactive]
  · obtain ⟨hstatus, hhash, hmetadata⟩ := h.resolve_left hactive
    rw [if_neg hactive, if_neg hstatus, if_pos hhash]
    by_cases hequivalent : metadataEquivalent existing.metadata input.metadata
    · rw [if_pos hequivalent]
    · obtain ⟨hindexing, hsame⟩ := hmetadata.resolve_left hequivalent
      rw [if_neg hequivalent, if_neg hindexing, hsame]

theorem mem_setMetadata {d : Document} {metadata : Object} (hd : d ∈ db.documents) :
    { d with metadata } ∈ (setMetadata db d.id metadata).documents := by
  dsimp only [setMetadata]
  rw [Table.mem_update]
  exact ⟨d, hd, (if_pos rfl).symm⟩

theorem setMetadata_idem (id : String) (metadata : Object) :
    setMetadata (setMetadata db id metadata) id metadata = setMetadata db id metadata := by
  unfold setMetadata
  congr 1
  ext1
  simp only [Table.update, List.map_map]
  apply List.map_congr_left
  intro d _
  by_cases hid : d.id = id
  · simp [hid]
  · simp [hid]

theorem enqueue_active {id : String} {enqueued : Bool}
    (h : enqueueUnlessActive env now db id = .ok (enqueued, db')) : hasActiveDocumentJob db' id := by
  rcases enqueueUnlessActive_ok h with ⟨hactive, rfl⟩ | ⟨_, d, hd, hid, hinsert⟩
  · exact hactive
  · obtain ⟨_, jobs, hjobs, rfl⟩ := insertJob_ok hinsert
    have hrevision : db.documentRevision id = some d.revision := documentRevision_eq_some.mpr ⟨d, hd, hid, rfl⟩
    exact ⟨_, (Table.mem_insert hjobs).mpr (.inr rfl), rfl, hrevision.symm, rfl, DocumentState.isActive_queued⟩

theorem enqueue_documents {id : String} {enqueued : Bool}
    (h : enqueueUnlessActive env now db id = .ok (enqueued, db')) : db'.documents = db.documents := by
  rcases enqueueUnlessActive_ok h with ⟨_, rfl⟩ | ⟨_, _, _, _, hinsert⟩
  · rfl
  · obtain ⟨_, _, _, rfl⟩ := insertJob_ok hinsert
    rfl

theorem requeue_result {existing : Document} (h : requeue env now db existing input hash = .ok (result, db')) :
    result.id = existing.id := by
  unfold requeue at h
  split at h
  · cases h
  · split at h
    · cases h
    · cases h
      rfl

/-- An upsert that was found by name leaves the document with its identity and nothing more to do. -/
structure Upserted (db : Database) (existing : Document) (input : UpsertDocument) (hash : String)
    (result : UpsertResult) (db' : Database) : Prop where
  id : result.id = existing.id
  identifies : Identifies db db'
  settled : ∃ existing' ∈ db'.documents, SameIdentity existing existing' ∧ UpToDate db' existing' input hash

theorem requeue_upserted {existing : Document} (hexisting : existing ∈ db.documents)
    (hcustom : input.customId = existing.customId) (htags : input.containerTags = existing.containerTags)
    (h : requeue env now db existing input hash = .ok (result, db')) : Upserted db existing input hash result db' := by
  obtain ⟨metadata, dbu, _, hupdate, henqueue⟩ := requeue_ok h
  obtain rfl := updateFull_ok hupdate
  have hdocuments := enqueue_documents henqueue
  have hidentifies : Identifies db db' := by
    apply Identifies.update (p := fun d => d.id = existing.id) (f := rewritten input hash metadata .queued)
    · rw [hdocuments]
      rfl
    · intro d hd hid
      obtain rfl := Table.eq_of_key hd hexisting hid
      exact ⟨rfl, rfl, hcustom, htags⟩
  obtain ⟨existing', hmem, hsame⟩ := hidentifies.kept existing hexisting
  exact ⟨requeue_result h, hidentifies, existing', hmem, hsame, .inl (hsame.1.symm ▸ enqueue_active henqueue)⟩

theorem applyExisting_upserted {existing : Document} (hexisting : existing ∈ db.documents)
    (hcustom : input.customId = existing.customId) (htags : input.containerTags = existing.containerTags)
    (h : applyExisting env now db existing input hash = .ok (result, db')) :
    Upserted db existing input hash result db' := by
  by_cases hsettled : UpToDate db existing input hash
  · cases (applyExisting_settled hsettled).symm.trans h
    exact ⟨rfl, .refl db, existing, hexisting, .refl existing, hsettled⟩
  · have hrequeue (h : requeue env now db existing input hash = .ok (result, db')) :
        Upserted db existing input hash result db' := requeue_upserted hexisting hcustom htags h
    unfold applyExisting at h
    simp only at h
    split at h
    · exact absurd (.inl ‹_›) hsettled
    · split at h
      · exact hrequeue h
      · rename_i hstatus
        split at h
        · rename_i hhash
          split at h
          · rename_i hequivalent
            exact absurd (.inr ⟨hstatus, hhash, .inl hequivalent⟩) hsettled
          · split at h
            · exact hrequeue h
            · rename_i hindexing
              cases h
              have hidentifies : Identifies db
                  (setMetadata db existing.id (mergeMetadata existing.metadata input.metadata)) :=
                .update (p := fun d => d.id = existing.id) rfl fun _ _ _ => ⟨rfl, rfl, rfl, rfl⟩
              refine ⟨rfl, hidentifies, _, mem_setMetadata hexisting, ⟨rfl, rfl, rfl, rfl⟩, .inr ⟨hstatus, hhash, .inr ?_⟩⟩
              refine ⟨hindexing, ?_⟩
              rw [mergeMetadata_idem]
              exact setMetadata_idem _ _
        · exact hrequeue h

-- ---------------------------------------------------------------------------
-- Upserts
-- ---------------------------------------------------------------------------

/-- The input with the content that is stored. -/
def sanitized (input : UpsertDocument) : UpsertDocument := { input with content := sanitizeContent input.content }

theorem sanitized_customId : (sanitized input).customId = input.customId := by
  simp only [sanitized]

theorem sanitized_containerTags : (sanitized input).containerTags = input.containerTags := by
  simp only [sanitized]

theorem sanitized_allowed : (sanitized input).Allowed ↔ input.Allowed := by
  simp only [sanitized, UpsertDocument.Allowed]

theorem sanitized_metadata : (sanitized input).metadata = input.metadata := by
  simp only [sanitized]

theorem upsertDocumentFor_eq :
    upsertDocumentFor env now orgId input db =
      match findExisting db orgId (sanitized input) (env.contentHash (sanitized input).content) with
      | some existing => applyExisting env now db existing (sanitized input) (env.contentHash (sanitized input).content)
      | none => insertNew env now db orgId (sanitized input) (env.contentHash (sanitized input).content) := rfl

theorem findExisting_custom {customId : String} (h : input.customId = some customId) :
    findExisting db orgId input hash = findCustom db orgId customId input.containerTags := by
  unfold findExisting
  rw [h]

theorem findExisting_content (h : input.customId = none) :
    findExisting db orgId input hash = findDuplicate db orgId hash input.metadata input.containerTags := by
  unfold findExisting
  rw [h]

/-- The document that an upsert finds by its content is left alone. -/
theorem settled_of_content {existing : Document} (hcustom : input.customId = none)
    (hfind : findExisting db orgId input hash = some existing) : UpToDate db existing input hash := by
  rw [findExisting_content hcustom] at hfind
  obtain ⟨_, hdone, hhash, hequivalent⟩ := findDuplicate_some hfind
  refine .inr ⟨?_, hhash, .inl hequivalent⟩
  rw [hdone]
  decide

theorem existing_identifies {existing : Document} (hfind : findExisting db orgId input hash = some existing)
    (h : applyExisting env now db existing input hash = .ok (result, db')) : Identifies db db' := by
  cases hcustom : input.customId with
  | some customId =>
    rw [findExisting_custom hcustom] at hfind
    obtain ⟨hexisting, _, hid, htags⟩ := findCustom_some hfind
    exact (applyExisting_upserted hexisting (hcustom.trans hid.symm) htags.symm h).identifies
  | none =>
    cases (applyExisting_settled (settled_of_content hcustom hfind)).symm.trans h
    exact .refl db

/-- The row that an insertion adds, and the job that it queues. -/
theorem insertNew_row (h : insertNew env now db orgId input hash = .ok (result, db')) :
    ∃ document documents enqueued, document.id = result.id ∧ document.orgId = orgId ∧
      document.customId = input.customId ∧ document.containerTags = input.containerTags ∧
      db.documents.insert document = some documents ∧
      enqueueUnlessActive env now { db with documents, idsDrawn := db.idsDrawn + 1 } document.id =
        .ok (enqueued, db') := by
  unfold insertNew at h
  simp only at h
  split at h
  · split at h
    · cases h
    · rename_i documents hinsert
      split at h
      · cases h
      · rename_i enqueued dbe henqueue
        cases h
        exact ⟨_, documents, enqueued, rfl, rfl, rfl, rfl, hinsert, henqueue⟩
  · cases h

theorem insertNew_identifies (hfind : findExisting db orgId input hash = none)
    (h : insertNew env now db orgId input hash = .ok (result, db')) : Identifies db db' := by
  obtain ⟨new, documents, _, _, horg, hcustom, htags, hinsert, henqueue⟩ := insertNew_row h
  have hmem {d : Document} : d ∈ db'.documents ↔ d ∈ db.documents ∨ d = new := by
    rw [enqueue_documents henqueue]
    exact Table.mem_insert hinsert
  refine ⟨fun d hd => ⟨d, hmem.mpr (.inl hd), .refl d⟩, .inr ⟨new, fun d hd => ?_, ?_⟩⟩
  · exact (hmem.mp hd).imp_left fun hold => ⟨d, hold, .refl d⟩
  · rintro d hd _ customId _ hname ⟨rfl, hid, rfl⟩
    rw [findExisting_custom (hcustom.symm.trans hid)] at hfind
    exact findCustom_none hfind d hd (horg ▸ htags ▸ hname)

theorem upsert_identifies (h : upsertDocumentFor env now orgId input db = .ok (result, db')) : Identifies db db' := by
  rw [upsertDocumentFor_eq] at h
  split at h
  · rename_i existing hfind
    exact existing_identifies hfind h
  · rename_i hfind
    exact insertNew_identifies hfind h

/-- No call makes two documents of an organization have the same custom identifier and tags. -/
theorem unique_names_of_reachable {s : System} (h : (machine env).Reachable s) : UniqueNames s.db := by
  apply h.invariant (I := fun s => UniqueNames s.db)
  · rintro s ⟨organizations, rfl⟩ d hd
    exact absurd hd Table.not_mem_empty
  · rintro s ⟨now, call⟩ s' _ hunique hstep
    obtain ⟨_, rfl⟩ := machine_step.mp hstep
    rw [System.after_db]
    by_cases hupsert : ∃ orgId input, call = .upsertDocument orgId input
    · obtain ⟨orgId, input, rfl⟩ := hupsert
      simp only [Call.run]
      cases hr : upsertDocumentFor env now orgId input s.db with
      | error e => exact hunique
      | ok r => exact hunique.identifies (upsert_identifies hr)
    · apply hunique.inherits
      intro d' hd'
      obtain ⟨d, hd, heq, _⟩ := Call.restates (fun orgId input heq => hupsert ⟨orgId, input, heq⟩) d' hd'
      rw [heq]
      exact ⟨d, hd, rfl, rfl, rfl, rfl⟩

/-- Rewriting a document of a reachable store and queueing its job is not refused, but for the input. -/
theorem requeue_returns {s : System} (hs : Consistent env s) {existing : Document}
    (hexisting : existing ∈ s.db.documents) (hallowed : input.Allowed) :
    ∃ r, requeue env now s.db existing input hash = .ok r := by
  unfold requeue
  cases hupdate : updateFull s.db existing.id input hash (mergeMetadata existing.metadata input.metadata) .queued with
  | error e =>
    unfold updateFull at hupdate
    rw [if_pos hallowed] at hupdate
    cases hupdate
  | ok dbu =>
    have hrewrites := updateFull_rewrites hupdate
    suffices hqueued : ∃ r, enqueueUnlessActive env now dbu existing.id = .ok r by
      obtain ⟨⟨enqueued, db'⟩, hr⟩ := hqueued
      refine ⟨(⟨existing.id, .queued, enqueued⟩, db'), ?_⟩
      simp only [hr]
    obtain ⟨d', hd', hid⟩ := hrewrites.documentKept existing hexisting
    have hrevision : dbu.documentRevision existing.id = some d'.revision :=
      documentRevision_eq_some.mpr ⟨d', hd', hid, rfl⟩
    obtain ⟨d, hd, hsame, hnext⟩ := hrewrites.document d' hd'
    obtain rfl := Table.eq_of_key hd hexisting (hsame.symm.trans hid)
    obtain ⟨_, hrev, _⟩ := hnext.resolve_left fun hother => hother.2 rfl
    -- the jobs of the document are of earlier revisions, and the identifier of the new one is new
    have hold : ¬ ∃ j ∈ dbu.jobs.rows, j.documentId = d.id ∧ j.revision = d'.revision ∧ j.status.IsActive := by
      rintro ⟨j', hj', hown, hsame_rev, _⟩
      obtain ⟨j, hj, ⟨_, hdoc, _, hjrev⟩, _⟩ := hrewrites.job j' hj'
      have hle := hs.revision j hj d hd (hown.symm.trans hdoc)
      omega
    have hfresh : ∀ j' ∈ dbu.jobs, j'.id ≠ env.generateId dbu.idsDrawn := by
      intro j' hj'
      obtain ⟨j, hj, ⟨hjid, _⟩, _⟩ := hrewrites.job j' hj'
      rw [hjid, hrewrites.idsDrawn]
      exact (hs.jobDrawn j hj).ne_next
    obtain ⟨jobs, hjobs⟩ := Table.insert_isSome (r := queuedJob env now dbu d.id .document d'.revision) hfresh
    unfold enqueueUnlessActive
    split
    · exact ⟨_, rfl⟩
    · simp only [hrevision, Database.insertJob, if_neg hold]
      unfold queuedJob at hjobs
      rw [hjobs]
      exact ⟨_, rfl⟩

theorem applyExisting_returns {s : System} (hs : Consistent env s) {existing : Document}
    (hexisting : existing ∈ s.db.documents) (hallowed : input.Allowed) :
    ∃ r, applyExisting env now s.db existing input hash = .ok r := by
  have hrequeue : ∃ r, requeue env now s.db existing input hash = .ok r := requeue_returns hs hexisting hallowed
  unfold applyExisting
  simp only
  split
  · exact ⟨_, rfl⟩
  · split
    · exact hrequeue
    · split
      · split
        · exact ⟨_, rfl⟩
        · split
          · exact hrequeue
          · exact ⟨_, rfl⟩
      · exact hrequeue

/-- An upsert by custom identifier leaves nothing to do for the same upsert. -/
theorem upsert_again {customId : String} (hunique : UniqueNames db) (hcustom : input.customId = some customId)
    (h : upsertDocumentFor env now orgId input db = .ok (result, db')) (later : Time) :
    ∃ status, upsertDocumentFor env later orgId input db' = .ok (⟨result.id, status, false⟩, db') := by
  have hunique' : UniqueNames db' := hunique.identifies (upsert_identifies h)
  have hcustom' : (sanitized input).customId = some customId := sanitized_customId.trans hcustom
  -- the document is there under its name, and it is settled
  suffices hsettled : ∃ d ∈ db'.documents, Named orgId customId (sanitized input).containerTags d ∧ d.id = result.id ∧
      UpToDate db' d (sanitized input) (env.contentHash (sanitized input).content) by
    obtain ⟨d, hd, hname, hid, hsettled⟩ := hsettled
    refine ⟨d.status, ?_⟩
    rw [upsertDocumentFor_eq, findExisting_custom hcustom', hunique'.findCustom hd hname, ← hid]
    exact applyExisting_settled hsettled
  rw [upsertDocumentFor_eq, findExisting_custom hcustom'] at h
  split at h
  · rename_i existing hfind
    obtain ⟨hexisting, hname⟩ := findCustom_some hfind
    have hupserted := applyExisting_upserted hexisting (hcustom'.trans hname.2.1.symm) hname.2.2.symm h
    obtain ⟨d, hd, hsame, hsettled⟩ := hupserted.settled
    exact ⟨d, hd, hsame.named_iff.mpr hname, hsame.1.trans hupserted.id.symm, hsettled⟩
  · obtain ⟨new, documents, _, hid, horg, hnew, htags, hinsert, henqueue⟩ := insertNew_row h
    refine ⟨new, ?_, ⟨horg, hnew.trans hcustom', htags⟩, hid, .inl (enqueue_active henqueue)⟩
    rw [enqueue_documents henqueue]
    exact (Table.mem_insert hinsert).mpr (.inr rfl)

/-- Documents never share a custom identifier and tags within an organization, no upsert changes an identity, an
    upsert by custom identifier is about the document that has it, and the same upsert again changes nothing. -/
theorem document_identity_is_stable {s : System} (hs : (machine env).Reachable s) :
    UniqueNames s.db ∧
    (∀ now orgId input customId, input.customId = some customId → ∀ d ∈ s.db.documents,
      Named orgId customId input.containerTags d →
        (input.Allowed → ∃ r, upsertDocumentFor env now orgId input s.db = .ok r) ∧
        ∀ result db', upsertDocumentFor env now orgId input s.db = .ok (result, db') → result.id = d.id) ∧
    (∀ now orgId input result db', upsertDocumentFor env now orgId input s.db = .ok (result, db') →
      (∀ d ∈ s.db.documents, ∃ d' ∈ db'.documents, SameIdentity d d') ∧
      (input.customId.isSome → ∀ later, ∃ status,
        upsertDocumentFor env later orgId input db' = .ok (⟨result.id, status, false⟩, db'))) := by
  have hunique := unique_names_of_reachable hs
  refine ⟨hunique, ?_, ?_⟩
  · intro now orgId input customId hcustom d hd hname
    have hcustom' : (sanitized input).customId = some customId := sanitized_customId.trans hcustom
    rw [← sanitized_containerTags] at hname
    have hfind : findExisting s.db orgId (sanitized input) (env.contentHash (sanitized input).content) = some d := by
      rw [findExisting_custom hcustom']
      exact hunique.findCustom hd hname
    simp only [upsertDocumentFor_eq, hfind]
    constructor
    · intro hallowed
      exact applyExisting_returns (consistent_of_reachable hs) hd (sanitized_allowed.mpr hallowed)
    · intro result db' h
      obtain ⟨_, hid, htags⟩ := hname
      exact (applyExisting_upserted hd (hcustom'.trans hid.symm) htags.symm h).id
  · intro now orgId input result db' h
    refine ⟨(upsert_identifies h).kept, ?_⟩
    intro hcustom later
    obtain ⟨customId, hcustom⟩ := Option.isSome_iff_exists.mp hcustom
    exact upsert_again hunique hcustom h later

/-- The text of the note is changed, and the second upsert with the new text does nothing. -/
theorem document_identity_is_stable_changed : ∃ s result db', indexedOnce = some s ∧
    upsertDocumentFor unaryEnv 0 "" (upsertOf "another fact") s.db = .ok (result, db') ∧ result.enqueued = true ∧
    (∀ d ∈ s.db.documents, ∃ d' ∈ db'.documents, SameIdentity d d') ∧
    ∀ later, ∃ status, upsertDocumentFor unaryEnv later "" (upsertOf "another fact") db' =
      .ok (⟨result.id, status, false⟩, db') := by
  have hchanged : ∃ s ∈ indexedOnce, ∃ r ∈ (upsertDocumentFor unaryEnv 0 "" (upsertOf "another fact") s.db).toOption,
      r.1.enqueued = true := by
    decide +kernel
  obtain ⟨s, hs, ⟨result, db'⟩, hresult, henqueued⟩ := hchanged
  have hupsert := Loop.ok_of_mem_toOption hresult
  obtain ⟨hkept, hagain⟩ := (document_identity_is_stable (afterCalls_reachable hs)).2.2 _ _ _ _ _ hupsert
  exact ⟨s, result, db', hs, hupsert, henqueued, hkept, hagain rfl⟩

-- ---------------------------------------------------------------------------
-- Upserts that change nothing
-- ---------------------------------------------------------------------------

/-- The revision and the status of the document are as they were, and so is every job. -/
structure Undisturbed (db : Database) (existing : Document) (db' : Database) : Prop where
  document : ∃ d ∈ db'.documents, d.id = existing.id ∧ d.revision = existing.revision ∧ d.status = existing.status
  jobs : db'.jobs = db.jobs

theorem undisturbed_setMetadata {existing : Document} (hexisting : existing ∈ db.documents) (metadata : Object) :
    Undisturbed db existing (setMetadata db existing.id metadata) :=
  ⟨⟨_, mem_setMetadata hexisting, rfl, rfl, rfl⟩, rfl⟩

theorem setMetadata_self {existing : Document} (hexisting : existing ∈ db.documents) :
    setMetadata db existing.id existing.metadata = db := by
  unfold setMetadata
  rw [Table.update_fixed]
  intro d hd hid
  rw [Table.eq_of_key hd hexisting hid]

/-- A rewritten document has another revision. -/
theorem requeue_disturbs {existing : Document} (hexisting : existing ∈ db.documents)
    (h : requeue env now db existing input hash = .ok (result, db')) : ¬ Undisturbed db existing db' := by
  rintro ⟨⟨d', hd', hid, hrevision, _⟩, _⟩
  obtain ⟨metadata, dbu, _, hupdate, henqueue⟩ := requeue_ok h
  obtain rfl := updateFull_ok hupdate
  rw [enqueue_documents henqueue] at hd'
  change d' ∈ db.documents.update (fun d => d.id = existing.id) (rewritten input hash metadata .queued) at hd'
  obtain ⟨d, hd, hsame, heq⟩ := Table.of_mem_update hd'
  have hd_id : d.id = existing.id := hsame.trans hid
  obtain rfl := Table.eq_of_key hd hexisting hd_id
  rw [if_pos rfl] at heq
  rw [heq] at hrevision
  exact absurd hrevision (Nat.succ_ne_self d.revision)

/-- An upsert with the stored content, when no job of the revision is active. -/
theorem applyExisting_same {existing : Document} (hinactive : ¬ hasActiveDocumentJob db existing.id)
    (hstatus : existing.status ≠ .failed) :
    applyExisting env now db existing input existing.contentHash =
      if metadataEquivalent existing.metadata input.metadata then .ok (⟨existing.id, existing.status, false⟩, db)
      else if existing.status = .indexing then requeue env now db existing input existing.contentHash
      else .ok (⟨existing.id, existing.status, false⟩,
        setMetadata db existing.id (mergeMetadata existing.metadata input.metadata)) := by
  unfold applyExisting
  simp only [if_true]
  rw [if_neg hinactive, if_neg hstatus]

/-- The document is being indexed, it is not in memory extraction either, or the metadata of the request is its own. -/
def LeftAlone (db : Database) (existing : Document) (input : UpsertDocument) : Prop :=
  hasActiveDocumentJob db existing.id ∨ existing.status ≠ .indexing ∨
    metadataEquivalent existing.metadata input.metadata

theorem leftAlone_sanitized {existing : Document} :
    LeftAlone db existing (sanitized input) ↔ LeftAlone db existing input := by
  simp only [LeftAlone, sanitized_metadata]

/-- An upsert with the stored content of a document that did not fail disturbs nothing exactly if the document is
    left alone, and then an upsert whose metadata is there already leaves the whole store as it is. -/
theorem upsert_undisturbed_iff {customId : String} {existing : Document} (hcustom : input.customId = some customId)
    (hfind : findCustom db orgId customId input.containerTags = some existing) (hstatus : existing.status ≠ .failed)
    (hhash : existing.contentHash = env.contentHash (sanitizeContent input.content)) :
    ((∃ result db', upsertDocumentFor env now orgId input db = .ok (result, db') ∧ result.enqueued = false ∧
      Undisturbed db existing db') ↔ LeftAlone db existing input) ∧
    (LeftAlone db existing input → mergeMetadata existing.metadata input.metadata = existing.metadata →
      upsertDocumentFor env now orgId input db = .ok (⟨existing.id, existing.status, false⟩, db)) := by
  obtain ⟨hexisting, _⟩ := findCustom_some hfind
  have hrun : upsertDocumentFor env now orgId input db =
      applyExisting env now db existing (sanitized input) existing.contentHash := by
    rw [upsertDocumentFor_eq, findExisting_custom (sanitized_customId.trans hcustom), sanitized_containerTags, hfind, hhash]
    rfl
  rw [hrun, ← leftAlone_sanitized, ← @sanitized_metadata input]
  refine ⟨⟨?_, ?_⟩, ?_⟩
  · rintro ⟨result, db', hresult, _, hundisturbed⟩
    by_contra hleft
    simp only [LeftAlone, not_or, not_not] at hleft
    obtain ⟨hinactive, hindexing, hmetadata⟩ := hleft
    rw [applyExisting_same hinactive hstatus, if_neg hmetadata, if_pos hindexing] at hresult
    exact requeue_disturbs hexisting hresult hundisturbed
  · intro hleft
    have hsame : Undisturbed db existing db := ⟨⟨existing, hexisting, rfl, rfl, rfl⟩, rfl⟩
    by_cases hactive : hasActiveDocumentJob db existing.id
    · exact ⟨_, db, applyExisting_settled (.inl hactive), rfl, hsame⟩
    · rw [applyExisting_same hactive hstatus]
      by_cases hmetadata : metadataEquivalent existing.metadata (sanitized input).metadata
      · rw [if_pos hmetadata]
        exact ⟨_, db, rfl, rfl, hsame⟩
      · have hindexing := (hleft.resolve_left hactive).resolve_right hmetadata
        rw [if_neg hmetadata, if_neg hindexing]
        exact ⟨_, _, rfl, rfl, undisturbed_setMetadata hexisting _⟩
  · intro hleft hmerge
    apply applyExisting_settled
    refine hleft.imp_right fun h => ⟨hstatus, rfl, h.symm.imp_right fun hindexing => ⟨hindexing, ?_⟩⟩
    rw [hmerge]
    exact setMetadata_self hexisting

/-- A request to store the note with metadata. -/
def annotated (metadata : Object) : UpsertDocument := { upsertOf "a fact" with metadata }

def dated : Object := [("date", .string "2026-07-30"), ("place", .string "Rome")]

/-- The note is indexed, and its memories are being extracted. -/
def extracting : Option System :=
  let job : ClaimedJob := ⟨"xx", "x", "a fact", 1⟩
  afterCalls [.openStorage, .upsertDocument "" (annotated dated), .claimJob, .markJobStage job .chunking,
    .markJobStage job .embedding, .completeEmbeddedJobWithMemoryExtraction job [] "model" 768, .claimMemoryJob]

theorem upsert_undisturbed_iff_dated : ∃ s, ∃ d : Document, extracting = some s ∧ d.status = .indexing ∧
    (∃ j ∈ s.db.jobs.rows, j.kind = .memory ∧ j.status.IsActive) ∧
    upsertDocumentFor unaryEnv 0 "" (annotated dated) s.db = .ok (⟨d.id, .indexing, false⟩, s.db) := by
  have hrun : ∃ s ∈ extracting, ∃ d ∈ findCustom s.db "" "note" ["tag"], d.status = .indexing ∧
      d.contentHash = unaryEnv.contentHash (sanitizeContent "a fact") ∧ d.metadata = dated ∧
      mergeMetadata d.metadata dated = d.metadata ∧ ∃ j ∈ s.db.jobs.rows, j.kind = .memory ∧ j.status.IsActive := by
    decide +kernel
  obtain ⟨s, hs, d, hfind, hindexing, hhash, hmetadata, hmerge, hjob⟩ := hrun
  have hstatus : d.status ≠ .failed := hindexing ▸ (by decide)
  obtain ⟨_, hwhole⟩ :=
    @upsert_undisturbed_iff unaryEnv 0 s.db "" (annotated dated) "note" d rfl hfind hstatus hhash
  have hresult := hwhole (.inr (.inr (congrArg comparable hmetadata))) hmerge
  rw [hindexing] at hresult
  exact ⟨s, d, hs, hindexing, hjob, hresult⟩

/-- A request that repeats one of two stored fields rewrites the document, and the extraction in progress is lost. -/
theorem repeated_field_restarts : ∃ s d result db', (machine unaryEnv).Reachable s ∧
    findCustom s.db "" "note" ["tag"] = some d ∧ d.status ≠ .failed ∧
    d.contentHash = unaryEnv.contentHash (sanitizeContent "a fact") ∧
    mergeMetadata d.metadata [("date", .string "2026-07-30")] = d.metadata ∧
    upsertDocumentFor unaryEnv 0 "" (annotated [("date", .string "2026-07-30")]) s.db = .ok (result, db') ∧
    result.enqueued = true ∧ (∀ d' ∈ db'.documents, d'.id = d.id → d'.revision = d.revision + 1) ∧
    (∃ j ∈ s.db.jobs, j.kind = .memory ∧ j.status.IsActive) ∧
    ∀ j ∈ db'.jobs, j.kind = .memory → j.status = .failed := by
  have hrun : ∃ s ∈ extracting, ∃ d ∈ findCustom s.db "" "note" ["tag"], d.status ≠ .failed ∧
      d.contentHash = unaryEnv.contentHash (sanitizeContent "a fact") ∧
      mergeMetadata d.metadata [("date", .string "2026-07-30")] = d.metadata ∧
      ∃ r ∈ (upsertDocumentFor unaryEnv 0 "" (annotated [("date", .string "2026-07-30")]) s.db).toOption,
        r.1.enqueued = true ∧ (∀ d' ∈ r.2.documents.rows, d'.id = d.id → d'.revision = d.revision + 1) ∧
        (∃ j ∈ s.db.jobs.rows, j.kind = .memory ∧ j.status.IsActive) ∧
        ∀ j ∈ r.2.jobs.rows, j.kind = .memory → j.status = .failed := by
    decide +kernel
  obtain ⟨s, hs, d, hfind, hstatus, hhash, hmerge, ⟨result, db'⟩, hresult, hafter⟩ := hrun
  exact ⟨s, d, result, db', afterCalls_reachable hs, hfind, hstatus, hhash, hmerge, Loop.ok_of_mem_toOption hresult,
    hafter⟩

end Storage
