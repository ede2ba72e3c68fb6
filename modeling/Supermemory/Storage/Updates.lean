-- SUMMARY: Which updates a batch asks for, and exactly when all of them take effect.
import Supermemory.Storage.Visibility

/-!
# Updates

A proposal that becomes a new memory retires the memories that its `updates` parents
name, and relates them to itself. A proposal that repeats a memory is done before its
parents are looked at. Its updates take effect only if they are on record already, or if
the proposal of the batch that added the memory asked for them too.
-/

namespace Storage

variable {env : Env} {now : Time} {batch : Batch} {db db' : Database}

-- ---------------------------------------------------------------------------
-- Requested and recorded updates
-- ---------------------------------------------------------------------------

/-- Every memory that an `updates` parent of a proposal resolves to is no longer latest after the call,
    its vector is inactive, and the update is recorded, unless it is the memory returned for it. -/
def UpdatesTakeEffect (env : Env) (now : Time) (batch : Batch) (proposals : List MemoryProposal)
    (db : Database) (records : List MemoryRecord) (db' : Database) : Prop :=
  ∀ (i : Nat) (record : MemoryRecord) (q : String), records[i]? = some record →
    UpdatesAt env now batch proposals db i q → q ≠ record.id →
    (∃ m ∈ db'.memories, m.id = q ∧ m.isLatest = false) ∧
    (∃ e ∈ db'.memoryEmbeddings, e.memoryId = q ∧ e.active = false) ∧
    ⟨q, record.id, "updates"⟩ ∈ db'.memoryRelations

/-- A proposal that adds the memory `r` names the memory `q` as updated. -/
def Adding (plan : List Planned) (q r : String) : Prop :=
  ∃ p ∈ plan, p.isNew = true ∧ p.id = r ∧ q ∈ p.updates

/-- The updates that a repeating proposal asks for are stored before the call, or the proposal of the
    batch that adds the memory asks for them as well. -/
def RepeatsRecorded (env : Env) (batch : Batch) (proposals : List MemoryProposal) (db : Database) : Prop :=
  let plan := planFor env batch db proposals
  ∀ p ∈ plan, p.isNew = false → ∀ q ∈ p.updates, q ≠ p.id →
    ⟨q, p.id, "updates"⟩ ∈ db.memoryRelations ∨ Adding plan q p.id

-- ---------------------------------------------------------------------------
-- What the loop records
-- ---------------------------------------------------------------------------

theorem mem_parentLinks_updates {childId q r : String} {parents : List ResolvedParent} :
    ⟨q, r, "updates"⟩ ∈ parentLinks childId parents ↔ childId = r ∧ q ∈ updatedIds parents := by
  simp only [parentLinks, mem_updatedIds, List.mem_map, List.mem_filter, MemoryRelation.mk.injEq]
  constructor
  · rintro ⟨p, ⟨hp, _⟩, hid, hchild, hrelation⟩
    exact ⟨hchild, p, hp, hrelation, hid⟩
  · rintro ⟨hchild, p, hp, hrelation, hid⟩
    exact ⟨p, ⟨hp, by simp [hrelation]⟩, hid, hchild, hrelation⟩

section Loop

variable {past : List Planned} {n : Names} {s s' : Reconciliation} {proposal : MemoryProposal}
  {proposals : List MemoryProposal} {q r : String}

/-- One turn records the updates of its proposal if that is new. -/
theorem Progress.turn_records (h : Progress env now batch db past n s)
    (hone : reconcileProposal env now batch s proposal = .ok s') :
    ⟨q, r, "updates"⟩ ∈ s'.db.memoryRelations ↔
      ⟨q, r, "updates"⟩ ∈ s.db.memoryRelations ∨ Adding [n.planned env proposal] q r := by
  simp only [Adding, List.mem_singleton, exists_eq_left, Names.planned_updates]
  rcases reconcileProposal_ok hone with ⟨id, hlookup, rfl⟩ | ⟨parents, id, hcreates⟩
  · simp [matched, addSource, h.repeats_planned hlookup]
  · have hupdates : q ∈ n.updates proposal ↔ q ∈ updatedIds parents := by
      rw [hcreates.resolved]
      exact Names.updates_resolved h.temporaryIds h.present
    rw [(hcreates.adds h.covers).relations, mem_parentLinks_updates, h.creates_planned hcreates,
      hupdates]
    simp [retiredParents]

theorem Progress.records (h : Progress env now batch db past n s)
    (hloop : reconcileProposals env now batch proposals s = .ok s') :
    ⟨q, r, "updates"⟩ ∈ s'.db.memoryRelations ↔
      ⟨q, r, "updates"⟩ ∈ s.db.memoryRelations ∨ Adding (plan env n proposals) q r := by
  induction proposals generalizing past n s with
  | nil =>
    cases hloop
    simp [Adding, plan]
  | cons proposal rest ih =>
    rw [reconcileProposals] at hloop
    split at hloop
    · cases hloop
    · rename_i t hone
      rw [ih (h.turn hone) hloop, h.turn_records hone, or_assoc]
      simp [Adding, plan, or_and_right, exists_or]

end Loop

/-! ## The law -/

section Call

variable {expectedRevision : Option Nat} {completionJobId : Option String}
  {proposals : List MemoryProposal} {records : List MemoryRecord}

/-- After the call, the recorded updates are those stored before and those of the new memories. -/
theorem reconciled_records {q r : String}
    (hok : reconcileMemoriesFor env now batch expectedRevision completionJobId proposals db =
      .ok (records, db')) : ⟨q, r, "updates"⟩ ∈ db'.memoryRelations ↔
        ⟨q, r, "updates"⟩ ∈ db.memoryRelations ∨ Adding (planFor env batch db proposals) q r := by
  obtain ⟨s, hloop, _, hsame, _⟩ := reconcileMemoriesFor_loop hok
  rw [hsame.relations]
  exact Progress.start.records hloop

/-- A recorded update has retired its parent. -/
theorem FlagsAgree.retired (h : FlagsAgree env db) (hd : Descent db) {q r : String}
    (hr : ⟨q, r, "updates"⟩ ∈ db.memoryRelations) :
    (∃ m ∈ db.memories, m.id = q ∧ m.isLatest = false) ∧
      ∃ e ∈ db.memoryEmbeddings, e.memoryId = q ∧ e.active = false := by
  obtain ⟨m, hm, _, _, hid, _⟩ := hd.related _ hr
  have hlatest : m.isLatest = false := h.updated _ hr rfl m hm hid
  obtain ⟨e, he, heid⟩ := h.embedded m hm
  refine ⟨⟨m, hm, hid, hlatest⟩, e, he, heid.trans hid, ?_⟩
  apply Bool.eq_false_iff.mpr
  intro hactive
  exact ((h.active m hm e he heid).mp hactive).latest hlatest

/-- Every update of a batch takes effect if and only if the updates of the proposals that repeat a
    memory are on record without them. -/
theorem resolvable_updates_take_effect (h : (memoryMachine env).Reachable db)
    (hok : reconcileMemoriesFor env now batch expectedRevision completionJobId proposals db =
      .ok (records, db')) :
    UpdatesTakeEffect env now batch proposals db records db' ↔ RepeatsRecorded env batch proposals db := by
  have hreachable := reachable_reconciled h hok
  have hids := planned_record hok
  obtain ⟨s, hloop, _, _⟩ := reconcileMemoriesFor_loop hok
  constructor
  · intro heffect p hp _ q hq hne
    obtain ⟨i, hi⟩ := List.mem_iff_getElem?.mp hp
    obtain ⟨record, hget, hid⟩ := planned_record_at hids hi
    have hupdates : UpdatesAt env now batch proposals db i q := (updatesAt_iff hloop).mpr ⟨p, hi, hq⟩
    rw [← hid] at hne ⊢
    exact (reconciled_records hok).mp (heffect i record q hget hupdates hne).2.2
  · intro hrepeats i record q hget hupdates hne
    obtain ⟨p, hi, hq⟩ := (updatesAt_iff hloop).mp hupdates
    obtain ⟨record', hget', hid⟩ := planned_record_at hids hi
    obtain rfl := Option.some_inj.mp (hget.symm.trans hget')
    rw [hid] at hne ⊢
    have hmem := List.mem_of_getElem? hi
    have hrecorded : ⟨q, p.id, "updates"⟩ ∈ db'.memoryRelations := by
      apply (reconciled_records hok).mpr
      cases hnew : p.isNew with
      | true => exact .inr ⟨p, hmem, hnew, rfl, hq⟩
      | false => exact hrepeats p hmem hnew q hq hne
    obtain ⟨hretired, hinactive⟩ := (flagsAgree_of_reachable hreachable).retired
      (descent_of_reachable hreachable) hrecorded
    exact ⟨hretired, hinactive, hrecorded⟩

end Call

/-- Two memories of one profile. -/
def teaAndCoffee : Option Database :=
  memoriesAfter [(0, .reconcile noteBatch none none [proposalOf "a" "Tea." [] none,
    proposalOf "b" "Coffee." [] none])]

/-- A batch that repeats a memory and updates it. -/
def greenTea : List MemoryProposal :=
  [proposalOf "c" "tea" [] none, proposalOf "d" "Green tea." [⟨"c", "updates"⟩] none]

theorem resolvable_updates_take_effect_greenTea : ∃ db records db', teaAndCoffee = some db ∧
    reconciledAt 0 greenTea db = some (records, db') ∧
    UpdatesTakeEffect unaryEnv 0 noteBatch greenTea db records db' := by
  obtain ⟨db, hdb⟩ : ∃ db, teaAndCoffee = some db := Option.isSome_iff_exists.mp (by decide +kernel)
  have hsome : ∀ db ∈ teaAndCoffee, (reconciledAt 0 greenTea db).isSome = true := by decide +kernel
  obtain ⟨⟨records, db'⟩, hr⟩ := Option.isSome_iff_exists.mp (hsome db hdb)
  have hrepeats : ∀ db ∈ teaAndCoffee, ∀ p ∈ planFor unaryEnv noteBatch db greenTea, p.isNew = false →
      p.updates = [] := by
    decide +kernel
  refine ⟨db, records, db', hdb, hr, ?_⟩
  apply (resolvable_updates_take_effect (memoriesAfter_reachable hdb) (reconciledAt_ok hr)).mpr
  intro p hp hrepeat q hq
  rw [hrepeats db hdb p hp hrepeat] at hq
  cases hq

/-- A proposal that repeats one memory and updates the other, by the identifier it was given. -/
def coffeeForTea : List MemoryProposal := [proposalOf "c" "coffee" [⟨"mem_", "updates"⟩] none]

/-- The call returns the memory that it repeats, and the other one is still latest. -/
theorem repeated_update_without_effect : ∃ db records db', teaAndCoffee = some db ∧
    (memoryMachine unaryEnv).Reachable db ∧
    reconcileMemoriesFor unaryEnv 0 noteBatch none none coffeeForTea db = .ok (records, db') ∧
    ¬ UpdatesTakeEffect unaryEnv 0 noteBatch coffeeForTea db records db' := by
  obtain ⟨db, hdb⟩ : ∃ db, teaAndCoffee = some db := Option.isSome_iff_exists.mp (by decide +kernel)
  have hsome : ∀ db ∈ teaAndCoffee, (reconciledAt 0 coffeeForTea db).isSome = true := by decide +kernel
  obtain ⟨⟨records, db'⟩, hr⟩ := Option.isSome_iff_exists.mp (hsome db hdb)
  have hupdates : ∀ db ∈ teaAndCoffee, "mem_" ∈ updatedIds
      (resolveMemoryParents db "org" "tag" [⟨"mem_", "updates"⟩] []) := by
    decide +kernel
  have hreturned : ∀ db ∈ teaAndCoffee, ∀ r ∈ reconciledAt 0 coffeeForTea db,
      r.1.map (·.id) = ["mem_x"] ∧ ∀ m ∈ r.2.memories.rows, m.isLatest = true := by
    decide +kernel
  obtain ⟨hids, hlatest⟩ := hreturned db hdb _ hr
  obtain ⟨record, rfl⟩ : ∃ record, records = [record] :=
    List.length_eq_one_iff.mp (by simpa using congrArg List.length hids)
  refine ⟨db, [record], db', hdb, memoriesAfter_reachable hdb, reconciledAt_ok hr, fun heffect => ?_⟩
  have hid : record.id = "mem_x" := by simpa using hids
  have hat : UpdatesAt unaryEnv 0 noteBatch coffeeForTea db 0 "mem_" :=
    ⟨reconciliationStart unaryEnv noteBatch db, _, rfl, rfl, hupdates db hdb⟩
  obtain ⟨⟨m, hm, _, hretired⟩, _⟩ := heffect 0 record "mem_" rfl hat (by rw [hid]; decide)
  cases (hlatest m hm).symm.trans hretired

end Storage
