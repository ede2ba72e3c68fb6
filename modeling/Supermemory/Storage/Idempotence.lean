-- SUMMARY: Reconciling a batch twice: the second call finds the memories of the first, and exactly when it adds none.
import Supermemory.Storage.Visibility

/-!
# Idempotence

After a batch, the content map of its loop names one memory for each content that the
batch or the profile holds. A second call with the same batch makes that map again from
the stored memories, where only the active ones count. It finds every memory of the first
call unless the batch retired one of them itself; then it adds that memory once more.
-/

namespace Storage

variable {env : Env} {now : Time} {batch : Batch} {db db' : Database}

-- ---------------------------------------------------------------------------
-- Calls made twice
-- ---------------------------------------------------------------------------

/-- The memories with their flags, the relations, the sources and the active vectors are the same. -/
structure SameReconciled (db db' : Database) : Prop where
  memories : ∀ id latest static forgotten,
    (∃ m ∈ db'.memories, m.id = id ∧ m.isLatest = latest ∧ m.isStatic = static ∧ m.isForgotten = forgotten) ↔
      ∃ m ∈ db.memories, m.id = id ∧ m.isLatest = latest ∧ m.isStatic = static ∧ m.isForgotten = forgotten
  relations : ∀ r, r ∈ db'.memoryRelations ↔ r ∈ db.memoryRelations
  sources : ∀ r, r ∈ db'.memorySources ↔ r ∈ db.memorySources
  embeddings : ∀ e, e.active = true → (e ∈ db'.memoryEmbeddings ↔ e ∈ db.memoryEmbeddings)

theorem SameReconciled.refl (db : Database) : SameReconciled db db where
  memories _ _ _ _ := Iff.rfl
  relations _ := Iff.rfl
  sources _ := Iff.rfl
  embeddings _ _ := Iff.rfl

/-- The call succeeds and leaves everything as it is. -/
def Repeats (env : Env) (now : Time) (batch : Batch) (expectedRevision : Option Nat)
    (completionJobId : Option String) (proposals : List MemoryProposal) (db : Database) : Prop :=
  ∃ records db', reconcileMemoriesFor env now batch expectedRevision completionJobId proposals db =
    .ok (records, db') ∧ SameReconciled db db'

/-- No memory that the batch adds updates one that the batch stands for. -/
def NoneUpdated (env : Env) (batch : Batch) (proposals : List MemoryProposal) (db : Database) : Prop :=
  let plan := planFor env batch db proposals
  ∀ p ∈ plan, ∀ q ∈ plan, q.isNew = true → p.id ∉ q.updates

instance (env : Env) (batch : Batch) (proposals : List MemoryProposal) (db : Database) :
    Decidable (NoneUpdated env batch proposals db) :=
  inferInstanceAs (Decidable (∀ p ∈ planFor env batch db proposals, ∀ q ∈ planFor env batch db proposals, _))

-- ---------------------------------------------------------------------------
-- What the content map knows
-- ---------------------------------------------------------------------------

/-- The memory holds the normalized content in the profile of the batch. -/
def HasContent (env : Env) (batch : Batch) (db : Database) (content id : String) : Prop :=
  ∃ m ∈ db.memories, m.id = id ∧ m.orgId = batch.orgId ∧ m.containerTag = batch.containerTag ∧
    normalizedMemory env m.content = content

/-- The content map knows the proposal by the memory, and the document is a source of the memory. -/
def Known (env : Env) (batch : Batch) (s : Reconciliation) (id : String) (proposal : MemoryProposal) : Prop :=
  s.exactMemories.lookup (normalizedMemory env proposal.content) = some id ∧
    (⟨id, batch.documentId⟩ : MemorySource) ∈ s.db.memorySources

/-- The content map knows the proposals so far by the memories returned for them. It names holders of the content only, and every active one. -/
structure Knows (env : Env) (batch : Batch) (past : List MemoryProposal) (s : Reconciliation) : Prop where
  past : List.Forall₂ (Known env batch s) s.recordIds past
  sound : ∀ content id, s.exactMemories.lookup content = some id → HasContent env batch s.db content id
  active : ∀ m ∈ s.db.memories, m.IsActive → m.orgId = batch.orgId → m.containerTag = batch.containerTag →
    s.exactMemories.lookup (normalizedMemory env m.content) = some m.id

theorem Knows.covers {past : List MemoryProposal} {s : Reconciliation} (h : Knows env batch past s) :
    Covers env batch s :=
  fun m hm hactive horg hcontainer => ⟨m.id, h.active m hm hactive horg hcontainer⟩

/-- In a profile where no two active memories have the same content, the map names each of them. -/
theorem FlagsAgree.lookup_active (h : FlagsAgree env db) {m : Memory} (hm : m ∈ db.memories)
    (hactive : m.IsActive) : (activeMemoryIdsByContent env db m.orgId m.containerTag).lookup
      (normalizedMemory env m.content) = some m.id := by
  obtain ⟨id, hlookup⟩ := covers_start env ⟨m.orgId, "", m.containerTag, "", 0⟩ db m hm hactive rfl rfl
  obtain ⟨m', hm', rfl, horg, hcontainer, hactive', hcontent⟩ := activeMemoryIdsByContent_sound hlookup
  obtain rfl := h.distinct m' hm' m hm hactive' hactive ⟨horg, hcontainer⟩ hcontent
  exact hlookup

theorem Knows.start (h : FlagsAgree env db) : Knows env batch [] (reconciliationStart env batch db) where
  past := .nil
  sound content id hlookup := by
    obtain ⟨m, hm, hid, horg, hcontainer, _, hcontent⟩ := activeMemoryIdsByContent_sound hlookup
    exact ⟨m, hm, hid, horg, hcontainer, hcontent⟩
  active m hm hactive horg hcontainer := by
    have hlookup := h.lookup_active hm hactive
    rwa [horg, hcontainer] at hlookup

section Turn

variable {past : List MemoryProposal} {s s' : Reconciliation} {proposal : MemoryProposal}
  {parents : List ResolvedParent} {id : String}

theorem Knows.repeats (h : Knows env batch past s)
    (hlookup : s.exactMemories.lookup (normalizedMemory env proposal.content) = some id) :
    Knows env batch (past ++ [proposal]) (matched batch proposal id s) where
  past := by
    apply List.rel_append
    · exact h.past.imp fun _ _ hpast => ⟨hpast.1, Table.mem_insertOrIgnore.mpr (.inl hpast.2)⟩
    · exact .cons ⟨hlookup, Table.mem_insertOrIgnore.mpr (.inr rfl)⟩ .nil
  sound := h.sound
  active := h.active

theorem Knows.creates (h : Knows env batch past s) (hc : Creates env now batch proposal s s' parents id) :
    Knows env batch (past ++ [proposal]) s' := by
  have hadds := hc.adds h.covers
  have hwithdraws := retiredParents_withdraws now s.db parents
  -- a content the map knew is not the new one
  have hkept : ∀ content id', s.exactMemories.lookup content = some id' →
      s'.exactMemories.lookup content = some id' := by
    intro content id' hlookup
    rw [hc.exactMemories, List.lookup_cons]
    split
    · rename_i heq
      rw [eq_of_beq heq, hc.unmatched] at hlookup
      cases hlookup
    · exact hlookup
  have hown : s'.exactMemories.lookup (normalizedMemory env proposal.content) = some id := by
    rw [hc.exactMemories, List.lookup_cons, beq_self_eq_true]
  constructor
  case past =>
    rw [hc.recordIds]
    apply List.rel_append
    · exact h.past.imp fun _ _ hpast => ⟨hkept _ _ hpast.1, (hc.sources _).mpr (.inl hpast.2)⟩
    · exact .cons ⟨hown, (hc.sources _).mpr (.inr rfl)⟩ .nil
  case sound =>
    intro content id' hlookup
    rw [hc.exactMemories, List.lookup_cons] at hlookup
    split at hlookup
    · rename_i heq
      cases hlookup
      exact ⟨_, (hadds.memories _).mpr (.inr rfl), rfl, rfl, rfl, (eq_of_beq heq).symm⟩
    · obtain ⟨m, hm, hid, horg, hcontainer, hcontent⟩ := h.sound content id' hlookup
      have hbecomes := hwithdraws.withdrawal.becomes_ite (updatedIds parents) m
      refine ⟨_, (hadds.memories _).mpr (.inl ((hwithdraws.memories _).mpr ⟨m, hm, rfl⟩)), ?_⟩
      rw [hbecomes.content]
      exact ⟨hbecomes.id.trans hid, hbecomes.profile.1.trans horg, hbecomes.profile.2.trans hcontainer, hcontent⟩
  case active =>
    intro m hm hactive horg hcontainer
    rcases (hadds.memories m).mp hm with hold | rfl
    · obtain ⟨hold, _⟩ := FlagsAgree.untouched hwithdraws hold hactive.latest
      exact hkept _ _ (h.active m hold hactive horg hcontainer)
    · exact hown

end Turn

section Loop

variable {past : List MemoryProposal} {s s' : Reconciliation} {proposals : List MemoryProposal}

theorem Knows.run (h : Knows env batch past s) (hloop : reconcileProposals env now batch proposals s = .ok s') :
    Knows env batch (past ++ proposals) s' := by
  induction proposals generalizing past s with
  | nil =>
    cases hloop
    rwa [List.append_nil]
  | cons proposal rest ih =>
    rw [reconcileProposals] at hloop
    split at hloop
    · cases hloop
    · rename_i t hone
      rw [List.append_cons]
      rcases reconcileProposal_ok hone with ⟨id, hlookup, rfl⟩ | ⟨parents, id, hcreates⟩
      · exact ih (h.repeats hlookup) hloop
      · exact ih (h.creates hcreates) hloop

/-- The memories of the loop are active or retired as the plan says. -/
theorem Progress.survive_run {P : Memory → Prop} {planned : List Planned} {n : Names}
    (h : Progress env now batch db planned n s)
    (hnew : ∀ proposal parents id, P (newMemory env now batch proposal parents id))
    (hsurvive : Survive P (Names.start env batch db).present db planned n.present s.db)
    (hloop : reconcileProposals env now batch proposals s = .ok s') :
    Survive P (Names.start env batch db).present db (planned ++ plan env n proposals)
      (proposals.foldl (Names.next env) n).present s'.db := by
  induction proposals generalizing planned n s with
  | nil =>
    cases hloop
    rwa [plan, List.append_nil]
  | cons proposal rest ih =>
    rw [reconcileProposals] at hloop
    split at hloop
    · cases hloop
    · rename_i t hone
      have hturn := h.turn hone
      rw [plan, List.append_cons]
      apply ih hturn _ hloop
      rcases reconcileProposal_ok hone with ⟨id, hlookup, rfl⟩ | ⟨parents, id, hcreates⟩
      · have hnext : (n.next env proposal).present = n.present := by
          simp [Names.next, h.repeats_planned hlookup]
        rw [hnext]
        exact h.survive_repeats hsurvive hlookup
      · have hnext : (n.next env proposal).present = id :: n.present := by
          simp [Names.next, h.creates_planned hcreates]
        rw [hnext]
        exact h.survive_creates hsurvive hcreates (hnew proposal parents id)

/-- A memory that the batch stands for is active after the loop if no new memory updates it. -/
theorem active_planned (hloop : reconcileProposals env now batch proposals (reconciliationStart env batch db) = .ok s')
    {p : Planned} (hp : p ∈ planFor env batch db proposals) :
    ActiveWith (fun _ => True) s'.db p.id ↔
      ∀ q ∈ planFor env batch db proposals, q.isNew = true → p.id ∉ q.updates := by
  have hstart : Survive (fun _ => True) (Names.start env batch db).present db []
      (Names.start env batch db).present (reconciliationStart env batch db).db :=
    fun id hid => ⟨fun hactive => ⟨fun _ => hactive, nofun⟩, fun hactive => hactive.1 hid⟩
  have hsurvive := Progress.start.survive_run (fun _ _ _ => trivial) hstart hloop
  rw [List.nil_append] at hsurvive
  refine (hsurvive p.id ((progress_of_loop hloop).planned p hp).1).trans (and_iff_right ?_)
  intro hstored
  obtain ⟨i, hi⟩ := List.mem_iff_getElem?.mp hp
  rcases planned_cases hloop hi with ⟨_, hactive⟩ | ⟨_, hnew, _⟩
  · obtain ⟨m, hm, hid, hm_active⟩ := hactive hstored
    exact ⟨m, hm, hid, hm_active, trivial⟩
  · exact absurd hstored hnew

/-! ## The second call -/

theorem addSource_present {memoryId documentId : String}
    (h : (⟨memoryId, documentId⟩ : MemorySource) ∈ db.memorySources) : addSource db memoryId documentId = db := by
  simp only [addSource, Table.insert_taken h rfl, Option.getD_none]

/-- A batch whose contents the map knows, from its document, writes nothing. -/
theorem reconcileProposals_known (now : Time) {ids : List String} (h : List.Forall₂ (Known env batch s) ids proposals) :
    ∃ temporaryIds, reconcileProposals env now batch proposals s =
      .ok { s with temporaryIds, recordIds := s.recordIds ++ ids } := by
  induction proposals generalizing s ids with
  | nil =>
    cases h
    exact ⟨s.temporaryIds, by simp [reconcileProposals]⟩
  | cons proposal rest ih =>
    cases h with
    | @cons id _ ids _ hone hrest =>
      obtain ⟨hlookup, hsource⟩ := hone
      have hturn : reconcileProposal env now batch s proposal =
          .ok { s with
            temporaryIds := (proposal.temporaryId, id) :: s.temporaryIds
            recordIds := s.recordIds ++ [id] } := by
        simp only [reconcileProposal, hlookup, addSource_present hsource]
      rw [reconcileProposals, hturn]
      obtain ⟨temporaryIds, hloop⟩ := ih (s := { s with
        temporaryIds := (proposal.temporaryId, id) :: s.temporaryIds
        recordIds := s.recordIds ++ [id] }) hrest
      refine ⟨temporaryIds, hloop.trans ?_⟩
      simp

/-- A loop that adds no memory knew the contents of all its proposals. -/
theorem known_of_no_new (hcovers : Covers env batch s)
    (hloop : reconcileProposals env now batch proposals s = .ok s')
    (h : ∀ m ∈ s'.db.memories, ∃ m₀ ∈ s.db.memories, m₀.id = m.id) :
    ∀ proposal ∈ proposals, ∃ id, s.exactMemories.lookup (normalizedMemory env proposal.content) = some id := by
  induction proposals generalizing s with
  | nil => nofun
  | cons proposal rest ih =>
    rw [reconcileProposals] at hloop
    split at hloop
    · cases hloop
    · rename_i t hone
      rcases reconcileProposal_ok hone with ⟨id, hlookup, rfl⟩ | ⟨parents, id, hcreates⟩
      · exact List.forall_mem_cons.mpr ⟨⟨id, hlookup⟩, ih (s := matched batch proposal id s) hcovers hloop h⟩
      · -- the memory that this proposal adds is there in the end
        have hadds := hcreates.adds hcovers
        have hsteps := Evolves.of_steps (reconcileProposals_steps hloop (hcreates.covers hcovers))
        obtain ⟨m', hm', hbecomes⟩ := hsteps.memories _ ((hadds.memories _).mpr (.inr rfl))
        obtain ⟨m₀, hm₀, hid⟩ := h m' hm'
        exact absurd (hid.trans hbecomes.id) (hcreates.fresh m₀ hm₀)

end Loop

section Call

variable {expectedRevision : Option Nat} {completionJobId : Option String}
  {proposals : List MemoryProposal} {records : List MemoryRecord}

/-- What a call checks before its loop. -/
structure Accepts (env : Env) (batch : Batch) (expectedRevision : Option Nat) (proposals : List MemoryProposal)
    (db : Database) : Prop where
  valid : validateProposals env batch.dimensions proposals = .ok ()
  source : ∃ source ∈ db.documents, source.id = batch.documentId ∧ source.orgId = batch.orgId ∧
    ∀ expected ∈ expectedRevision, expected = source.revision

theorem accepts_of_ok (hok : reconcileMemoriesFor env now batch expectedRevision completionJobId proposals db =
    .ok (records, db')) : Accepts env batch expectedRevision proposals db := by
  unfold reconcileMemoriesFor at hok
  split at hok
  · cases hok
  · rename_i hvalid
    refine ⟨hvalid, ?_⟩
    split at hok
    · cases hok
    · rename_i source hfind
      obtain ⟨hsource, horg⟩ := Option.filter_eq_some_iff.mp hfind
      obtain ⟨hmem, hid⟩ := Table.find_eq_some.mp hsource
      split at hok
      · cases hok
      · rename_i hexpected
        refine ⟨source, hmem, hid, by simpa using horg, fun expected hmem => ?_⟩
        by_contra hne
        exact hexpected ⟨expected, hmem, hne⟩

/-- A call without a job to complete commits when its loop ends. -/
theorem Accepts.commits {s : Reconciliation} (h : Accepts env batch expectedRevision proposals db)
    (hloop : reconcileProposals env now batch proposals (reconciliationStart env batch db) = .ok s)
    (hrecords : readRecords s.db s.recordIds = .ok records) :
    reconcileMemoriesFor env now batch expectedRevision none proposals db = .ok (records, s.db) := by
  obtain ⟨source, hmem, hid, horg, hexpected⟩ := h.source
  have hfind : (db.documents.find batch.documentId).filter (·.orgId = batch.orgId) = some source := by
    simp [Table.find_eq_some.mpr ⟨hmem, hid⟩, horg]
  have hcurrent : ¬ ∃ expected ∈ expectedRevision, expected ≠ source.revision := by
    rintro ⟨expected, hmem, hne⟩
    exact hne (hexpected expected hmem)
  unfold reconciliationStart at hloop
  simp only [reconcileMemoriesFor, h.valid, hfind, if_neg hcurrent, hloop, hrecords]

theorem readRecords_present {ids : List String} (h : ∀ id ∈ ids, ∃ m ∈ db.memories, m.id = id) :
    ∃ records, readRecords db ids = .ok records := by
  induction ids with
  | nil => exact ⟨[], rfl⟩
  | cons id rest ih =>
    obtain ⟨⟨m, hm, hid⟩, hrest⟩ := List.forall_mem_cons.mp h
    obtain ⟨records, hrecords⟩ := ih hrest
    refine ⟨readMemory m :: records, ?_⟩
    simp only [readRecords, readMemoryById, Table.find_eq_some.mpr ⟨hm, hid⟩, hrecords]

/-- The document of a call is there after it, at its revision. -/
theorem Accepts.after (h : Accepts env batch expectedRevision proposals db)
    (hok : reconcileMemoriesFor env now batch expectedRevision completionJobId proposals db =
      .ok (records, db')) : Accepts env batch expectedRevision proposals db' := by
  refine ⟨h.valid, ?_⟩
  obtain ⟨source, hmem, hid, horg, hexpected⟩ := h.source
  obtain ⟨current, _, _, _, s, hloop, _, hfinish⟩ := reconcileMemoriesFor_ok hok
  have hkept : source ∈ s.db.documents := (reconcileProposals_memoriesOnly hloop).documents ▸ hmem
  rcases hfinish with ⟨_, rfl⟩ | ⟨jobId, _, hfinish⟩
  · exact ⟨source, hkept, hid, horg, hexpected⟩
  · obtain ⟨_, rfl⟩ := finishReconciliation_ok hfinish
    have hfinished : source ∈
        (finishedReconciliation s.db jobId batch.documentId current.revision).documents := hkept
    obtain ⟨d, hd, hdid, hdorg, hdrev⟩ := setDocumentStatus_keeps hfinished
    exact ⟨d, hd, hdid.trans hid, hdorg.trans horg, hdrev ▸ hexpected⟩

/-- The job that a call completed cannot be completed again. -/
theorem completed_once {jobId : String} {records' : List MemoryRecord} {db'' : Database}
    (hok : reconcileMemoriesFor env now batch expectedRevision (some jobId) proposals db = .ok (records, db')) :
    ¬ reconcileMemoriesFor env now batch expectedRevision (some jobId) proposals db' = .ok (records', db'') := by
  intro hagain
  obtain ⟨source, _, _, _, s, hloop, _, ⟨hnone, _⟩ | ⟨_, hjob, hfinish⟩⟩ := reconcileMemoriesFor_ok hok
  · cases hnone
  obtain ⟨source', _, _, _, s', hloop', _, ⟨hnone, _⟩ | ⟨_, hjob', hfinish'⟩⟩ := reconcileMemoriesFor_ok hagain
  · cases hnone
  cases hjob
  cases hjob'
  obtain ⟨⟨j, hj, hjid, _, _, hextracting⟩, _⟩ := finishReconciliation_ok hfinish'
  rw [(reconcileProposals_memoriesOnly hloop').jobs] at hj
  cases hextracting.symm.trans (finishReconciliation_done hfinish j hj hjid).1

section Again

variable {past : List MemoryProposal} {s : Reconciliation} {content id : String}

theorem Knows.lookup_active (h : Knows env batch past s) (hsame : SameMemories s.db db') (hflags : FlagsAgree env db')
    (hlookup : s.exactMemories.lookup content = some id) (hactive : ActiveWith (fun _ => True) db' id) :
    (activeMemoryIdsByContent env db' batch.orgId batch.containerTag).lookup content = some id := by
  obtain ⟨m, hm, rfl, hm_active, _⟩ := hactive
  obtain ⟨m', hm', hid, horg, hcontainer, rfl⟩ := h.sound content m.id hlookup
  obtain rfl := Table.eq_of_key (hsame.memories ▸ hm') hm hid
  rw [← horg, ← hcontainer]
  exact hflags.lookup_active hm hm_active

/-- The map of the second call names what the first one knew, and only if it is active. -/
theorem Knows.active_of_lookup (h : Knows env batch past s) (hsame : SameMemories s.db db') {id' : String}
    (hlookup : s.exactMemories.lookup content = some id)
    (hagain : (activeMemoryIdsByContent env db' batch.orgId batch.containerTag).lookup content = some id') :
    ActiveWith (fun _ => True) db' id := by
  obtain ⟨m, hm, rfl, horg, hcontainer, hactive, rfl⟩ := activeMemoryIdsByContent_sound hagain
  have hown := h.active m (hsame.memories ▸ hm) hactive horg hcontainer
  obtain rfl := Option.some_inj.mp (hlookup.symm.trans hown)
  exact ⟨m, hm, rfl, hactive, trivial⟩

theorem Knows.of_mem (h : Knows env batch past s) (hid : id ∈ s.recordIds) :
    ∃ proposal ∈ past, Known env batch s id proposal := by
  obtain ⟨i, rfl⟩ := List.get_of_mem hid
  have hlt : i < past.length := h.past.length_eq ▸ i.isLt
  exact ⟨past.get ⟨i, hlt⟩, List.get_mem past _, h.past.get i.isLt hlt⟩

end Again

/-- A call repeated with the same batch, with or without the job to complete, succeeds and leaves
    everything as it is if and only if it has no job to complete and no memory that the batch adds
    updates one that the batch stands for. -/
theorem reconciliation_idempotent (h : (memoryMachine env).Reachable db)
    (hok : reconcileMemoriesFor env now batch expectedRevision completionJobId proposals db =
      .ok (records, db')) {again : Option String} (hagain : again = none ∨ again = completionJobId) :
    Repeats env now batch expectedRevision again proposals db' ↔
      again = none ∧ NoneUpdated env batch proposals db := by
  have hflags' := flagsAgree_of_reachable (reachable_reconciled h hok)
  obtain ⟨s, hloop, _, hsame, hsources⟩ := reconcileMemoriesFor_loop hok
  have hknows := (Knows.start (flagsAgree_of_reachable h)).run hloop
  rw [List.nil_append] at hknows
  have hids := (progress_of_loop hloop).recordIds
  have hactive : ∀ p ∈ planFor env batch db proposals, ActiveWith (fun _ => True) db' p.id ↔
      ∀ q ∈ planFor env batch db proposals, q.isNew = true → p.id ∉ q.updates := by
    intro p hp
    rw [ActiveWith, hsame.memories]
    exact active_planned hloop hp
  constructor
  · rintro ⟨records', db'', hok', hleft⟩
    have hnone : again = none := by
      rcases hagain with hnone | rfl
      · exact hnone
      · cases again with
        | none => rfl
        | some jobId => exact absurd hok' (completed_once hok)
    refine ⟨hnone, fun p hp => (hactive p hp).mp ?_⟩
    obtain ⟨s', hloop', _, hsame', _⟩ := reconcileMemoriesFor_loop hok'
    have hold : ∀ m ∈ s'.db.memories, ∃ m₀ ∈ db'.memories, m₀.id = m.id := by
      intro m hm
      rw [← hsame'.memories] at hm
      obtain ⟨m₀, hm₀, hid, _⟩ := (hleft.memories m.id _ _ _).mp ⟨m, hm, rfl, rfl, rfl, rfl⟩
      exact ⟨m₀, hm₀, hid⟩
    have hmem : p.id ∈ s.recordIds := hids ▸ List.mem_map_of_mem hp
    obtain ⟨proposal, hproposal, hlookup, _⟩ := hknows.of_mem hmem
    obtain ⟨id', hlookup'⟩ := known_of_no_new (covers_start env batch db') hloop' hold proposal hproposal
    exact hknows.active_of_lookup hsame hlookup hlookup'
  · rintro ⟨rfl, hnone⟩
    have hall : ∀ id ∈ s.recordIds, ActiveWith (fun _ => True) db' id := by
      intro id hid
      rw [hids] at hid
      obtain ⟨p, hp, rfl⟩ := List.mem_map.mp hid
      exact (hactive p hp).mpr (hnone p hp)
    have hknown : List.Forall₂ (Known env batch (reconciliationStart env batch db')) s.recordIds proposals := by
      refine ((List.forall₂_and_left _ _).mpr ⟨hall, hknows.past⟩).imp fun id proposal hpair => ?_
      obtain ⟨hactive, hlookup, hsource⟩ := hpair
      exact ⟨hknows.lookup_active hsame hflags' hlookup hactive, hsources ▸ hsource⟩
    obtain ⟨temporaryIds, hloop'⟩ := reconcileProposals_known now hknown
    have hpresent : ∀ id ∈ s.recordIds, ∃ m ∈ db'.memories, m.id = id := by
      intro id hid
      obtain ⟨m, hm, hmid, _⟩ := hall id hid
      exact ⟨m, hm, hmid⟩
    obtain ⟨records', hrecords'⟩ := readRecords_present hpresent
    refine ⟨records', db', ?_, .refl db'⟩
    exact ((accepts_of_ok hok).after hok).commits hloop' hrecords'

end Call

/-- A batch that updates a memory the store holds. -/
def coffeeInstead : List MemoryProposal := [proposalOf "c" "Coffee." [⟨"mem_x", "updates"⟩] none]

theorem reconciliation_idempotent_coffee : ∃ db records db', updatedOnce = some db ∧
    reconciledAt 0 coffeeInstead db = some (records, db') ∧
    Repeats unaryEnv 0 noteBatch none none coffeeInstead db' := by
  obtain ⟨db, hdb⟩ : ∃ db, updatedOnce = some db := Option.isSome_iff_exists.mp (by decide +kernel)
  have hsome : ∀ db ∈ updatedOnce, (reconciledAt 0 coffeeInstead db).isSome = true := by decide +kernel
  obtain ⟨⟨records, db'⟩, hr⟩ := Option.isSome_iff_exists.mp (hsome db hdb)
  have hnone : ∀ db ∈ updatedOnce, NoneUpdated unaryEnv noteBatch coffeeInstead db := by decide +kernel
  refine ⟨db, records, db', hdb, hr, ?_⟩
  apply (reconciliation_idempotent (memoriesAfter_reachable hdb) (reconciledAt_ok hr) (.inl rfl)).mpr
  exact ⟨rfl, hnone db hdb⟩

/-- A memory, and a later one of the same batch that updates it. -/
def teaThenGreenTea : List MemoryProposal :=
  [proposalOf "a" "Tea." [] none, proposalOf "b" "Green tea!" [⟨"a", "updates"⟩] none]

/-- The second call adds the updated memory once more. -/
theorem repeated_call_adds : (memoryMachine unaryEnv).Reachable noteStore ∧
    ∃ records db', reconcileMemoriesFor unaryEnv 0 noteBatch none none teaThenGreenTea noteStore =
      .ok (records, db') ∧ ¬ Repeats unaryEnv 0 noteBatch none none teaThenGreenTea db' := by
  obtain ⟨⟨records, db'⟩, hr⟩ : ∃ r, reconciledAt 0 teaThenGreenTea noteStore = some r :=
    Option.isSome_iff_exists.mp (by decide +kernel)
  have hadds : ∀ r ∈ reconciledAt 0 teaThenGreenTea noteStore,
      ∀ r' ∈ reconciledAt 0 teaThenGreenTea r.2, (∃ m ∈ r'.2.memories.rows, m.id = "mem_xx") ∧
        ∀ m ∈ r.2.memories.rows, m.id ≠ "mem_xx" := by
    decide +kernel
  refine ⟨.start ⟨rfl, rfl, rfl⟩, records, db', reconciledAt_ok hr, ?_⟩
  rintro ⟨records', db'', hok, hsame⟩
  have hr' : reconciledAt 0 teaThenGreenTea db' = some (records', db'') := by
    rw [reconciledAt, hok]
    rfl
  obtain ⟨⟨m, hm, hid⟩, hnew⟩ := hadds _ hr _ hr'
  obtain ⟨m₀, hm₀, hid₀, _⟩ := (hsame.memories "mem_xx" _ _ _).mp ⟨m, hm, hid, rfl, rfl, rfl⟩
  exact hnew m₀ hm₀ hid₀

end Storage
